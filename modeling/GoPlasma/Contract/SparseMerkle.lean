import GoPlasma.Contract.Solidity
import GoPlasma.Smt.Node

/-!
# `SparseMerkle.sol`

The contract that checks Merkle proofs on the root chain. A proof is one byte string: 8 bytes with
a bit for every height that has its own hash, then these hashes, the lowest first.
-/

namespace GoPlasma.Contract

/-- The contract: its storage `bytes32[65] defaultHashes`. -/
structure SparseMerkle where
  defaultHashes : ℕ → Hash

/-- The constant that the constructor writes. -/
def emptyHash : Hash :=
  ⟨[0xc5, 0xd2, 0x46, 0x01, 0x86, 0xf7, 0x23, 0x3c, 0x92, 0x7e, 0x7d, 0xb2, 0xdc, 0xc7, 0x03, 0xc0,
    0xe5, 0x00, 0xb6, 0x53, 0xca, 0x82, 0x27, 0x3b, 0x7b, 0xfa, 0xd8, 0x04, 0x5d, 0x85, 0xa4, 0x70],
    rfl⟩

section
variable (E : Evm)

/-- The body of the loop of `setDefaultHashes`. -/
def setDefaultHash (hashes : ℕ → Hash) (i : ℕ) : ℕ → Hash :=
  Function.update hashes (i + 1) (E.keccak ((hashes i).1 ++ (hashes i).1))

/-- `setDefaultHashes` -/
def setDefaultHashes (startIndex endIndex : ℕ) (s : SparseMerkle) : Sol SparseMerkle := do
  require (s.defaultHashes startIndex ≠ zeroHash ∧ s.defaultHashes endIndex = zeroHash)
  .ok ⟨(List.range' startIndex (endIndex - startIndex)).foldl (setDefaultHash E) s.defaultHashes⟩

/-- The constructor. -/
def newSparseMerkle : Sol SparseMerkle :=
  setDefaultHashes E 0 64 ⟨Function.update (fun _ => zeroHash) 0 emptyHash⟩

/-- The variables of the loop of `getRoot`. -/
structure Climb where
  computedHash : Hash
  p : ℕ
  proofBits : UInt64
  index : UInt64

/-- The sibling of a round, and the new `p`, which stays below 2 ^ 16. A hash is read only where
the proof is long enough. -/
def proofElement (s : SparseMerkle) (proof : Bytes) (c : Climb) (d : ℕ) : Sol (Hash × ℕ) :=
  if c.proofBits % 2 = 0 then .ok (s.defaultHashes d, c.p)
  else do
    let p := c.p + 32
    require (p ≤ proof.length)
    .ok (bytes32 (proof.drop (p - 32)), p)

/-- One round. -/
def getRootRound (s : SparseMerkle) (proof : Bytes) (c : Climb) (d : ℕ) : Sol Climb := do
  let (e, p) ← proofElement s proof c d
  let computedHash :=
    if c.index % 2 = 0 then E.keccak (c.computedHash.1 ++ e.1)
    else E.keccak (e.1 ++ c.computedHash.1)
  .ok ⟨computedHash, p, c.proofBits / 2, c.index / 2⟩

/-- `getRoot`; the subtraction in the first check wraps around. -/
def getRoot (s : SparseMerkle) (leaf : Hash) (index : UInt64) (proof : Bytes) : Sol Hash := do
  require ((proof.length + (2 ^ 256 - 8)) % 2 ^ 256 % 32 = 0 ∧ proof.length ≤ 2056)
  let c ← (List.range 64).foldlM (getRootRound E s proof)
    ⟨leaf, 8, UInt64.ofNat (Bytes.ofBE (proof.take 8)), index⟩
  .ok c.computedHash

/-- `checkMembership` -/
def checkMembership (s : SparseMerkle) (leaf root : Hash) (tokenID : UInt64) (proof : Bytes) :
    Sol Bool := do
  let computedHash ← getRoot E s leaf tokenID proof
  .ok (decide (computedHash = root))

end

end GoPlasma.Contract
