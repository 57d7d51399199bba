import GoPlasma.Smt.Node
import GoPlasma.Lib.Rlp

/-!
# Tokens, accounts and transactions

The records of the token chain (`plasmachain/token.go`, `account.go`, `anchorobject.go`) and its
two kinds of transactions (`plasmachain/transaction.go`, `deep/anchortransaction.go`), with their
hashes, their signers and the checks that need no state.

`Keccak256`, `Ecrecover` and the operator's key are the parameter `Crypto`. Amounts are `uint64`
with wrap-around. The numbers of the blocks that the node itself counts are natural numbers.
Addresses that the source passes by pointer are never nil here: the code dereferences them first
thing.
-/

namespace GoPlasma.Plasma

/-! ## Addresses and keys -/

/-- A `common.Address`: 20 bytes. -/
abbrev Address := {b : Bytes // b.length = 20}

instance : LawfulBEq Address := inferInstance

/-- The zero address. -/
def zeroAddress : Address := ⟨Bytes.zeros 20, Bytes.length_zeros 20⟩

/-- `addr[12:20]`, the key of an account. -/
def shortAddr (addr : Address) : Smt.Key :=
  ⟨addr.1.drop 12, by rw [List.length_drop, addr.2]⟩

/-- A byte slice: its length is an `int`. -/
abbrev Slice := {b : Bytes // b.length < 2 ^ 63}

def emptySlice : Slice := ⟨[], by decide⟩

/-- What the code takes from go-ethereum's `crypto` package, and the operator's key. -/
structure Crypto where
  keccak : Bytes → Hash
  /-- The public key that made a signature of a hash. -/
  ecrecover : Bytes → Bytes → Except String Bytes
  operatorAddr : Address
  /-- `crypto.Sign` with the operator's key. -/
  operatorSign : Bytes → Except String Bytes

/-! ## Text -/

/-- The bytes of a text. -/
def ascii (s : String) : Bytes := s.toList.map fun c => UInt8.ofNat c.toNat

/-- `%x` of a number. -/
def hexNat (n : ℕ) : String := String.ofList (Nat.toDigits 16 n)

/-- `%x` of a byte string. -/
def hexBytes (b : Bytes) : String :=
  String.join (b.map fun x => hexNat (x.toNat / 16) ++ hexNat (x.toNat % 16))

/-- `Address.Hex`: letters are in upper case where the hash of the text says so. -/
def addressHex (C : Crypto) (addr : Address) : String :=
  let text := hexBytes addr.1
  let hash := (hexBytes (C.keccak (ascii text)).1).toList
  "0x" ++ String.ofList ((text.toList.zip hash).map fun (c, h) => if '7' < h then c.toUpper else c)

/-! ## Records -/

/-- `Token`, the record of a token in the token trie. -/
structure Token where
  denomination : UInt64
  prevBlock : ℕ
  owner : Address
  balance : UInt64
  allowance : UInt64
  spent : UInt64
deriving DecidableEq

/-- `Account`, the record of an account; the two totals are `*big.Int`. -/
structure Account where
  tokens : List UInt64
  denomination : ℤ
  balance : ℤ
deriving DecidableEq

/-- `TokenInfo`, a deposit on layer 1. -/
structure TokenInfo where
  depositIndex : UInt64
  denomination : UInt64
  depositor : Address

/-! ## Token transactions -/

/-- `Transaction`. The field `balance` is local: it is in no encoding. -/
structure Transaction where
  tokenID : UInt64
  denomination : UInt64
  depositIndex : UInt64
  prevBlock : UInt64
  prevOwner : Address
  recipient : Address
  allowance : UInt64
  spent : UInt64
  sig : Slice
  balance : UInt64
deriving DecidableEq

section
variable (C : Crypto)

/-- `tokenKey`: the last eight bytes of a hash. -/
def tokenKey (depositIndex denomination : UInt64) (depositor : Address) : UInt64 :=
  bytesToUint64
    ((C.keccak (depositor.1 ++ uInt64ToByte depositIndex ++ uInt64ToByte denomination)).1.drop 24)

/-- The fields of the encoding, with the given signature. -/
def Transaction.fields (tx : Transaction) (sig : Bytes) : List Rlp.Item :=
  [Rlp.uint tx.tokenID.toNat, Rlp.uint tx.denomination.toNat, Rlp.uint tx.depositIndex.toNat,
    Rlp.uint tx.prevBlock.toNat, .str tx.prevOwner.1, .str tx.recipient.1,
    Rlp.uint tx.allowance.toNat, Rlp.uint tx.spent.toNat, .str sig]

/-- `Bytes` -/
def Transaction.bytes (tx : Transaction) : Bytes := Rlp.encode (.list (tx.fields tx.sig.1))

theorem Transaction.length_encodeAll_fields (tx : Transaction) :
    (Rlp.encodeAll (tx.fields tx.sig.1)).length < 2 ^ 63 + 200 := by
  have ha : ∀ a : Address, (Rlp.encode (.str a.1)).length ≤ 29 :=
    fun a => Rlp.length_encode_fixed_le a.2 (by norm_num)
  have hsig := Rlp.length_encode_str_le (b := tx.sig.1) (lt_trans tx.sig.2 (by norm_num))
  have hslice := tx.sig.2
  simp only [Transaction.fields, Rlp.encodeAll, List.length_append, List.length_nil]
  have h₁ := Rlp.length_encode_uint_le tx.tokenID
  have h₂ := Rlp.length_encode_uint_le tx.denomination
  have h₃ := Rlp.length_encode_uint_le tx.depositIndex
  have h₄ := Rlp.length_encode_uint_le tx.prevBlock
  have h₅ := Rlp.length_encode_uint_le tx.allowance
  have h₆ := Rlp.length_encode_uint_le tx.spent
  have h₇ := ha tx.prevOwner
  have h₈ := ha tx.recipient
  omega

theorem Transaction.length_bytes_lt (tx : Transaction) : tx.bytes.length < 2 ^ 64 := by
  have hall := tx.length_encodeAll_fields
  have hhead := Rlp.length_header_le 0xC0 (lt_trans hall (by norm_num))
  rw [Transaction.bytes, Rlp.encode, List.length_append]
  omega

/-- `Hash` -/
def Transaction.hash (tx : Transaction) : Hash := C.keccak tx.bytes

/-- `ShortHash`: without the signature. -/
def Transaction.shortHash (tx : Transaction) : Hash := C.keccak (Rlp.encode (.list (tx.fields [])))

/-- `signHash` -/
def signHash (shortHash : Bytes) : Bytes :=
  (C.keccak (ascii ("\x19Ethereum Signed Message:\n" ++ toString shortHash.length)
    ++ shortHash)).1

/-- The address whose key made the signature. -/
def recoverSigner (shortHash sig : Bytes) : Except String Address := do
  let recoveredPub ← C.ecrecover (signHash C shortHash) sig
  match recoveredPub with
  | [] => .error "invalid public key"
  | b :: rest =>
    if b ≠ 4 then .error "invalid public key"
    else .ok ⟨(C.keccak rest).1.drop 12, by rw [List.length_drop, (C.keccak rest).2]⟩

/-- The address of a public key, without its first byte. -/
def addressOfPub (pub : Bytes) : Address :=
  ⟨(C.keccak pub).1.drop 12, by rw [List.length_drop, (C.keccak pub).2]⟩

/-- `GetSigner` -/
def Transaction.getSigner (tx : Transaction) : Except String Address :=
  recoverSigner C (tx.shortHash C).1 tx.sig.1

/-- `ValidateSig` -/
def Transaction.validateSig (tx : Transaction) : Except String Unit := do
  let signer ← tx.getSigner C
  if signer ≠ tx.prevOwner then
    .error ("Invalid Singer. Recovered:" ++ addressHex C signer ++ " vs Expected:"
      ++ addressHex C tx.prevOwner)
  else if tx.prevBlock = 0 ∧ tokenKey C tx.depositIndex tx.denomination tx.recipient ≠
    tx.tokenID then
    .error "Invalid Deposit Recipient"
  else .ok ()

/-- `NewTransaction` for the token `NewToken` makes of a deposit, as `processDeposit` calls them
before it signs: the operator is the previous owner. -/
def depositTransaction (t : TokenInfo) : Transaction where
  tokenID := tokenKey C t.depositIndex t.denomination t.depositor
  denomination := t.denomination
  depositIndex := t.depositIndex
  prevBlock := 0
  prevOwner := C.operatorAddr
  recipient := t.depositor
  allowance := 0
  spent := 0
  sig := emptySlice
  balance := t.denomination

/-- `SignTx` with the operator's key: 65 bytes of the signature. -/
def Transaction.signByOperator (tx : Transaction) : Except String Transaction := do
  let sig ← C.operatorSign (signHash C (tx.shortHash C).1)
  .ok { tx with sig := ⟨Bytes.fit 65 sig, by rw [Bytes.length_fit]; norm_num⟩ }

end

/-! ## Anchor transactions -/

/-- `Ownership`: the changes to the owners of a layer 3 chain. -/
structure Ownership where
  addedOwners : List Address
  removedOwners : List Address
deriving DecidableEq

/-- `AnchorTransaction` -/
structure AnchorTransaction where
  blockChainID : UInt64
  blockNumber : UInt64
  blockHash : Option Hash
  extra : Ownership
  sig : Slice
deriving DecidableEq

/-- `anchorBlock`: the record of a layer 3 chain, and the anchors of one block. -/
structure AnchorBlock where
  anchors : List AnchorTransaction
  owners : List Address
  startBlock : UInt64
  endBlock : UInt64
deriving DecidableEq

/-- `addressExist` -/
def addressExist (addrList : List Address) (addr : Address) : Bool :=
  addrList.any fun a => decide (a = addr)

/-- The body of the loop of `remove`. -/
def removeAt (addr : Address) (addrList : List Address) (i : ℕ) : List Address :=
  if addrList[i]? = some addr then addrList.take i ++ addrList.drop (i + 1) else addrList

/-- `remove`: from the last index to the first. -/
def remove (addrList : List Address) (addr : Address) : List Address :=
  (List.range addrList.length).reverse.foldl (removeAt addr) addrList

/-- `AddOwner`. The two slices have arrays of their own, so that removing in place is a change of
the one list. -/
def AnchorTransaction.addOwner (addr : Address) (tx : AnchorTransaction) : AnchorTransaction :=
  let o := tx.extra
  let o :=
    if addressExist o.removedOwners addr then
      { removedOwners := remove o.removedOwners addr
        addedOwners := remove o.addedOwners addr : Ownership }
    else if !addressExist o.addedOwners addr then
      { o with addedOwners := o.addedOwners ++ [addr] }
    else o
  { tx with extra := o }

/-- `RemoveOwner` -/
def AnchorTransaction.removeOwner (addr : Address) (tx : AnchorTransaction) : AnchorTransaction :=
  let o := tx.extra
  let o :=
    if addressExist o.addedOwners addr then
      { removedOwners := remove o.removedOwners addr
        addedOwners := remove o.addedOwners addr : Ownership }
    else if !addressExist o.removedOwners addr then
      { o with removedOwners := o.removedOwners ++ [addr] }
    else o
  { tx with extra := o }

section
variable (C : Crypto)

/-- The fields of the encoding; a nil hash is an empty string. -/
def AnchorTransaction.fields (tx : AnchorTransaction) (sig : Bytes) : List Rlp.Item :=
  [Rlp.uint tx.blockChainID.toNat, Rlp.uint tx.blockNumber.toNat,
    .str (match tx.blockHash with
      | none => []
      | some h => h.1),
    .list [.list (tx.extra.addedOwners.map fun a => .str a.1),
      .list (tx.extra.removedOwners.map fun a => .str a.1)],
    .str sig]

/-- `Bytes` -/
def AnchorTransaction.bytes (tx : AnchorTransaction) : Bytes :=
  Rlp.encode (.list (tx.fields tx.sig.1))

/-- `Hash` -/
def AnchorTransaction.hash (tx : AnchorTransaction) : Hash := C.keccak tx.bytes

/-- `ShortHash` -/
def AnchorTransaction.shortHash (tx : AnchorTransaction) : Hash :=
  C.keccak (Rlp.encode (.list (tx.fields [])))

/-- `GetSigner` -/
def AnchorTransaction.getSigner (tx : AnchorTransaction) : Except String Address :=
  recoverSigner C (tx.shortHash C).1 tx.sig.1

/-- `ValidateExtraData`, where `removeDuplicates` has put the owners into these orders. -/
def AnchorTransaction.validateExtraData (addedOwners removedOwners : List Address)
    (tx : AnchorTransaction) : Except String AnchorTransaction :=
  if addedOwners.any fun addr => decide (addr ∈ removedOwners) then
    .error "Invalid Ownership modification"
  else .ok { tx with extra := ⟨addedOwners, removedOwners⟩ }

/-- `ValidateAnchor` -/
def AnchorTransaction.validateAnchor (addedOwners removedOwners : List Address)
    (tx : AnchorTransaction) : Except String AnchorTransaction := do
  let tx ← tx.validateExtraData addedOwners removedOwners
  let _ ← tx.getSigner C
  if tx.blockChainID = 0 then .error "BlockchainID 0 Not Allowed" else .ok tx

/-- `SignTx`, where `sign` is `crypto.Sign` with the key and `removeDuplicates` has put the owners
into these orders: 65 bytes of the signature. -/
def AnchorTransaction.signTx (sign : Bytes → Except String Bytes)
    (addedOwners removedOwners : List Address) (tx : AnchorTransaction) :
    Except String AnchorTransaction := do
  let tx ← tx.validateExtraData addedOwners removedOwners
  let sig ← sign (signHash C (tx.shortHash C).1)
  .ok { tx with sig := ⟨Bytes.fit 65 sig, by rw [Bytes.length_fit]; norm_num⟩ }

end

/-- `NewAnchorBlock` -/
def newAnchorBlock (anchorTx : AnchorTransaction) : AnchorBlock :=
  ⟨[anchorTx], [], anchorTx.blockNumber, anchorTx.blockNumber⟩

/-- `AddAnchorTx` -/
def AnchorBlock.addAnchorTx (anchorTx : AnchorTransaction) (a : AnchorBlock) : AnchorBlock :=
  { a with anchors := a.anchors ++ [anchorTx] }

/-- `Sort`, where `sort.Slice` has put the anchors into this order; it panics on an empty list. -/
def AnchorBlock.sort (anchors : List AnchorTransaction) (a : AnchorBlock) : Go AnchorBlock :=
  match anchors.head?, anchors.getLast? with
  | some first, some last =>
      .ok { a with
        anchors := anchors
        startBlock := first.blockNumber
        endBlock := last.blockNumber }
  | _, _ => .error .indexOutOfRange

end GoPlasma.Plasma
