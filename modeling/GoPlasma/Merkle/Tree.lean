import GoPlasma.Basic
import GoPlasma.Lib.BinTree

/-!
# Binary Merkle trees

The package `merkletree` (`merkle/merkletree.go`). A tree is one array of byte strings: node 1 is
the root, the children of node `i` are the nodes `2 * i` and `2 * i + 1`, and the second half holds
the leaves, padded with empty strings until their number is a power of two. A proof is the leaf and
the siblings on its way to the root in one byte string, which is read in words of 32 bytes.

Slices have no spare capacity here, so a window behind the end of a slice panics. Indices are
natural numbers: they are only halved, compared, and added to a length that is at least as large.
-/

namespace GoPlasma.Merkle

/-- The element of a slice at an index. -/
def elem (l : List Bytes) (i : ℕ) : Go Bytes := (l[i]?).elim (.error .indexOutOfRange) .ok

/-- The bytes of a slice in a window. -/
def window (b : Bytes) (i j : ℕ) : Go Bytes :=
  if i ≤ j ∧ j ≤ b.length then .ok (Bytes.slice b i (j - i)) else .error .indexOutOfRange

/-- `is_a_power_of_2`, given up after `fuel` nested calls. -/
def isAPowerOf2 : ℕ → ℕ → Go Bool
  | 0, _ => .error .stackOverflow
  | fuel + 1, x =>
      if x = 1 then .ok true
      else if x % 2 = 1 then .ok false
      else isAPowerOf2 fuel (x / 2)

/-- The first loop of `Merkelize`, given up after `fuel` rounds, and each test in it after `depth`
nested calls. -/
def padLeaves (depth : ℕ) : ℕ → List Bytes → Go (List Bytes)
  | 0, _ => .error .stackOverflow
  | fuel + 1, l => do
      let full ← isAPowerOf2 depth l.length
      if full then .ok l else padLeaves depth fuel (l ++ [[]])

section
variable (keccak : Bytes → Hash)

/-- `Computehash` -/
def computehash (data : List Bytes) : Bytes := (keccak data.flatten).1

/-- The body of the last loop of `Merkelize`. -/
def setNode (nodes : List Bytes) (i : ℕ) : Go (List Bytes) := do
  let left ← elem nodes (i * 2)
  let right ← elem nodes (i * 2 + 1)
  .ok (nodes.set i (computehash keccak [left ++ right]))

/-- `Merkelize`, given up after `fuel` nested calls or rounds of the first loop. The last loop goes
down to the unused node 0. -/
def merkelize (fuel : ℕ) (l : List Bytes) : Go (List Bytes) := do
  let l ← padLeaves fuel fuel l
  (List.range l.length).reverse.foldlM (setNode keccak) (List.replicate l.length [] ++ l)

/-- `MerkleRoot` -/
def merkleRoot (tree : List Bytes) : Go Bytes := elem tree 1

/-- The loop of `GenProof`; `fuel` is at least the number of its rounds, as each halves `ind`. -/
def genProofLoop (tree : List Bytes) : ℕ → ℕ → Bytes → Go Bytes
  | 0, _, mkproof => .ok mkproof
  | fuel + 1, ind, mkproof =>
      if 1 < ind then do
        let sibling ← elem tree (ind ^^^ 1)
        genProofLoop tree fuel (ind / 2) (mkproof ++ sibling)
      else .ok mkproof

/-- What `GenProof` returns beside the error. -/
structure Generated where
  merkelroot : Bytes
  mkproof : Bytes
  index : ℕ
deriving DecidableEq, Repr

/-- `GenProof` -/
def genProof (tree : List Bytes) (ind : ℕ) : Go (Except String Generated) :=
  let treelen := tree.length / 2
  if ind > treelen then .ok (.error "Invalid idx")
  else do
    let leaf ← elem tree (ind + treelen)
    let mkproof ← genProofLoop tree (ind + treelen) (ind + treelen) leaf
    let root ← elem tree 1
    .ok (.ok ⟨root, mkproof, ind⟩)

/-- A round of `CheckProof`: `merkleroot` and `index` are combined with the word at `depth`. -/
def checkProofRound (mkproof : Bytes) (s : Bytes × ℕ) (depth : ℕ) : Bytes × ℕ :=
  let rhash := Bytes.fit 32 (Bytes.slice mkproof (depth * 32) 32)
  let merkleroot :=
    if s.2 % 2 > 0 then computehash keccak [rhash ++ s.1] else computehash keccak [s.1 ++ rhash]
  (merkleroot, s.2 / 2)

/-- `CheckProof`: whether the proof is valid, and the root that it leads to. -/
def checkProof (expectedMerkleRoot mkproof : Bytes) (index : ℕ) :
    Go (Except String (Bool × Bytes)) :=
  if mkproof.length % 32 ≠ 0 then .ok (.error "Invalid mkproof length")
  else do
    let merkleroot ← window mkproof 0 32
    let rounds := List.range' 1 (mkproof.length / 32 - 1)
    let merkleroot := (rounds.foldl (checkProofRound keccak mkproof) (merkleroot, index)).1
    .ok (.ok (decide (expectedMerkleRoot = merkleroot), merkleroot))

end

/-- `Proof` -/
structure Proof where
  index : ℕ
  root : Bytes
  proof : Bytes
deriving DecidableEq, Repr

/-- `ToProof`: the proof without its first word. -/
def toProof (roothash mkProof : Bytes) (ind : ℕ) : Go Proof := do
  let externalProof ← window mkProof 32 mkProof.length
  .ok ⟨ind, roothash, externalProof⟩

end GoPlasma.Merkle
