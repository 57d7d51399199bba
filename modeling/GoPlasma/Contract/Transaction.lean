import GoPlasma.Contract.Solidity
import GoPlasma.Lib.Rlp

/-!
# `RLP.sol`, `ECRecovery.sol` and `Transaction.sol`

How the root chain reads a transaction of the child chain. The reader of `RLP.sol` works with
pointers into the memory and does not compare the lengths that it reads with the length of the
byte array, so what it returns can depend on the memory behind the array: each call takes that
memory as an argument. Pointers are offsets from the start of the array. An item starts inside the
array, and a length that is read has at most 8 bytes, so that no sum wraps around.
-/

namespace GoPlasma.Contract

open Plasma (Address zeroAddress)

/-! ## `RLP.sol` -/

/-- `RLPItem` -/
structure RLPItem where
  memPtr : ℕ
  length : ℕ

/-- The item in a fresh array. -/
def nullItem : RLPItem := ⟨0, 0⟩

/-- `toRLPItem` -/
def toRLPItem (data : Bytes) : RLPItem := if data.length = 0 then nullItem else ⟨0, data.length⟩

section
variable (mem : Memory)

/-- `isList` -/
def isList (item : RLPItem) : Bool := decide (item.length ≠ 0 ∧ 0xC0 ≤ (mem item.memPtr).toNat)

/-- `isData` -/
def isData (item : RLPItem) : Bool := decide (item.length ≠ 0 ∧ (mem item.memPtr).toNat < 0xC0)

/-- `_payloadOffset` -/
def payloadOffset (item : RLPItem) : ℕ :=
  let b0 := (mem item.memPtr).toNat
  if item.length = 0 then 0
  else if b0 < 0x80 then 0
  else if b0 < 0xB8 ∨ (0xC0 ≤ b0 ∧ b0 < 0xF8) then 1
  else if b0 < 0xC0 then b0 - 0xB7 + 1
  else b0 - 0xF7 + 1

/-- `_itemLength` -/
def itemLength (memPtr : ℕ) : ℕ :=
  let b0 := (mem memPtr).toNat
  if b0 < 0x80 then 1
  else if b0 < 0xB8 then b0 - 0x80 + 1
  else if b0 < 0xC0 then 1 + (b0 - 0xB7) + mem.number (memPtr + 1) (b0 - 0xB7)
  else if b0 < 0xF8 then b0 - 0xC0 + 1
  else 1 + (b0 - 0xF7) + mem.number (memPtr + 1) (b0 - 0xF7)

/-- The loop of `toList`: the items from `ptr` to the end of the list, into an array with room for
`n` more. -/
def items (last : ℕ) : ℕ → ℕ → Sol (List RLPItem)
  | n, ptr =>
    if ptr < last then
      match n with
      | 0 => .error .invalid
      | n + 1 => do
          let rest ← items last n (ptr + itemLength mem ptr)
          .ok (⟨ptr, itemLength mem ptr⟩ :: rest)
    else .ok (List.replicate n nullItem)

/-- `toList` -/
def toList (item : RLPItem) (numItems : ℕ) : Sol (List RLPItem) := do
  require (isList mem item)
  items mem (item.memPtr + item.length) numItems (item.memPtr + payloadOffset mem item)

/-- `_decode`: where the data of an item starts, and how long it is. -/
def decode (item : RLPItem) : ℕ × ℕ :=
  let b0 := (mem item.memPtr).toNat
  if b0 < 0x80 then (item.memPtr, 1)
  else if b0 < 0xB8 then (item.memPtr + 1, item.length - 1)
  else (item.memPtr + (b0 - 0xB7) + 1, item.length - 1 - (b0 - 0xB7))

/-- `toUint` -/
def toUint (item : RLPItem) : Sol ℕ := do
  require (isData mem item)
  require ((decode mem item).2 ≤ 32)
  .ok (mem.number (decode mem item).1 (decode mem item).2)

/-- `toAddress` -/
def toAddress (item : RLPItem) : Sol Address := do
  require (isData mem item)
  require ((decode mem item).2 = 20)
  .ok ⟨mem.read (decode mem item).1 20, mem.length_read _ _⟩

/-- `toBytes` -/
def toBytes (item : RLPItem) : Bytes := mem.read item.memPtr item.length

/-- `toData` -/
def toData (item : RLPItem) : Sol Bytes := do
  require (isData mem item)
  .ok (mem.read (decode mem item).1 (decode mem item).2)

end

/-! ## `ECRecovery.sol` -/

/-- The prefix of a signed message. -/
def messagePrefix : Bytes := 0x19 :: Plasma.ascii "Ethereum Signed Message:\n32"

/-- `recover` -/
def recover (E : Evm) (hash : Hash) (sig : Bytes) : Address :=
  if sig.length ≠ 65 then zeroAddress
  else
    let v := sig.getD 64 0
    let v := if v < 27 then v + 27 else v
    if v ≠ 27 ∧ v ≠ 28 then zeroAddress
    else E.ecrecover (E.keccak ( messagePrefix ++ hash.1)) v (bytes32 sig) (bytes32 (sig.drop 32))

/-! ## `Transaction.sol` -/

/-- `PlasmaTx` -/
structure PlasmaTx where
  tokenID : UInt64
  denomination : UInt64
  depositIndex : UInt64
  prevBlock : UInt64
  prevOwner : Address
  recipient : Address
  allowance : UInt64
  spent : UInt64
  balance : UInt64
deriving DecidableEq

/-- `abi.encodePacked(depositor, depositIndex, denomination)`, hashed to a token. -/
def tokenHash (E : Evm) (depositor : Address) (depositIndex denomination : UInt64) : UInt64 :=
  lowWord (E.keccak (depositor.1 ++ uInt64ToByte depositIndex ++ uInt64ToByte denomination))

section
variable (behind : Memory) (txBytes : Bytes)

/-- `txBytes.toRLPItem().toList(9)` -/
def txItems : Sol (List RLPItem) := toList (memoryOf txBytes behind) (toRLPItem txBytes) 9

/-- `uint64(rlpTx[i].toUint())` -/
def uint64Field (rlpTx : List RLPItem) (i : ℕ) : Sol UInt64 := do
  let n ← toUint (memoryOf txBytes behind) (rlpTx.getD i nullItem)
  .ok (UInt64.ofNat n)

/-- `rlpTx[i].toAddress()` -/
def addressField (rlpTx : List RLPItem) (i : ℕ) : Sol Address :=
  toAddress (memoryOf txBytes behind) (rlpTx.getD i nullItem)

/-- `parseTx` -/
def parseTx : Sol PlasmaTx := do
  let rlpTx ← txItems behind txBytes
  let tokenID ← uint64Field behind txBytes rlpTx 0
  let denomination ← uint64Field behind txBytes rlpTx 1
  let depositIndex ← uint64Field behind txBytes rlpTx 2
  let prevBlock ← uint64Field behind txBytes rlpTx 3
  let prevOwner ← addressField behind txBytes rlpTx 4
  let recipient ← addressField behind txBytes rlpTx 5
  let allowance ← uint64Field behind txBytes rlpTx 6
  let spent ← uint64Field behind txBytes rlpTx 7
  let rest ← uint64Sub denomination allowance
  let balance ← uint64Sub rest spent
  .ok ⟨tokenID, denomination, depositIndex, prevBlock, prevOwner, recipient, allowance, spent,
    balance⟩

/-- The bytes whose hash is signed: the transaction with an empty signature. -/
def unsignedTx (rlpTx : List RLPItem) : Bytes :=
  let list := ((List.range 8).map fun i =>
    toBytes (memoryOf txBytes behind) (rlpTx.getD i nullItem)).flatten ++ [0x80]
  Rlp.header 0xC0 list.length ++ list

/-- `verifyTx`; the token that a deposit names is compared in all its 256 bits. -/
def verifyTx (E : Evm) : Sol Bool := do
  let rlpTx ← txItems behind txBytes
  let prevBlock ← toUint (memoryOf txBytes behind) (rlpTx.getD 3 nullItem)
  if prevBlock = 0 then do
    let recipient ← addressField behind txBytes rlpTx 5
    let depositIndex ← uint64Field behind txBytes rlpTx 2
    let denomination ← uint64Field behind txBytes rlpTx 1
    let tokenID ← toUint (memoryOf txBytes behind) (rlpTx.getD 0 nullItem)
    .ok (decide ((tokenHash E recipient depositIndex denomination).toNat = tokenID))
  else do
    let allowance ← uint64Field behind txBytes rlpTx 6
    let spent ← uint64Field behind txBytes rlpTx 7
    let used ← uint64Add allowance spent
    let denomination ← uint64Field behind txBytes rlpTx 1
    if denomination < used then .ok false
    else do
      let prevOwner ← addressField behind txBytes rlpTx 4
      let sig ← toData (memoryOf txBytes behind) (rlpTx.getD 8 nullItem)
      .ok (decide (recover E (E.keccak (unsignedTx behind txBytes rlpTx)) sig = prevOwner))

end

end GoPlasma.Contract
