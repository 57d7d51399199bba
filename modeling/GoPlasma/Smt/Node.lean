import GoPlasma.Basic

/-!
# Nodes of the sparse Merkle tree (`smt/node.go`)

A tree over 64-bit keys, read four bits at a time. An inner node has 16 children; a subtree
with a single key is stored as one *terminal* node, at the highest level where the key is
alone. A node's `level` is the height of its subtree minus one: 63 at the root, four less per
step down, and `-1` below the last of the 16 key pieces.

Go pointers become values: `Node.nil` is the nil pointer, and a method that mutates its
receiver returns the new node. Node chunks are written with `SetChunk`, one goroutine per
chunk; the writes a flush issues are returned as a list.

Loops over the key pieces recurse on the number `r` of pieces that are left, so that the
source's index is `i = 16 - r`.
-/

namespace GoPlasma.Smt

/-- `TreeDepth`: the number of bits of a key. -/
def treeDepth : ℕ := 64

/-- `bytesPerChild`: the width of a child's row in a node chunk. -/
def bytesPerChild : ℕ := 88

/-- `chunkSize` -/
def chunkSize : ℕ := 4096

/-- `bitsPerPiece` -/
def bitsPerPiece : ℕ := 4

/-- An 8-byte key. -/
abbrev Key := {b : Bytes // b.length = 8}

/-- The all-zero key, which is also the row marker for "not a terminal". -/
def zeroKey : Key := ⟨Bytes.zeros 8, Bytes.length_zeros 8⟩

instance : Inhabited Key := ⟨zeroKey⟩

/-- Eight bytes of a chunk as a key. -/
def toKey (b : Bytes) : Key := ⟨Bytes.fit 8 b, Bytes.length_fit 8 b⟩

/-- `nkeypieces` of an 8-byte key. -/
def nkeypieces : ℕ := 16

instance neZeroSixteen : NeZero 16 := ⟨by decide⟩

/-- The `i`-th piece of a key: the top four bits of byte `i/2` if `i` is even, the bottom four
if it is odd. -/
def keypiece (k : Key) (i : ℕ) : Fin 16 :=
  if i % 2 = 0 then Fin.ofNat 16 ((k.1.getD (i / 2) 0 >>> 4) &&& 0x0F).toNat
  else Fin.ofNat 16 (k.1.getD (i / 2) 0 &&& 0x0F).toNat

/-- Bit `i` of a key, as the hashing loops test it. -/
def keyBit (k : Key) (i : ℕ) : Bool :=
  decide (((0x01 : UInt8) <<< UInt8.ofNat (i % 8)) &&& k.1.getD ((treeDepth - 1 - i) / 8) 0 > 0)

/-- The fields of a `Node`, children apart. The field `mrcache` is left out: every function
that reads it has just recomputed it. -/
structure NodeData where
  level : ℤ
  chunkHash : Bytes
  merkleRoot : Bytes
  unloaded : Bool
  terminal : Bool
  /-- Only read of terminal nodes; in the source it is nil until it is set. -/
  key : Key
  dirty : Bool
  storageBytes : UInt64
  blockNum : UInt64

/-- A `*Node`. -/
inductive Node where
  | nil
  | mk (data : NodeData) (children : Fin 16 → Node)

/-- The fields `NewNode` sets. -/
def newData (level : ℤ) : NodeData where
  level := level
  chunkHash := []
  merkleRoot := []
  unloaded := false
  terminal := false
  key := default
  dirty := false
  storageBytes := 0
  blockNum := 0

/-- `NewNode` -/
def newNode (level : ℤ) : Node := .mk (newData level) fun _ => .nil

/-- `SetHash` -/
def setHash (hash : Bytes) : Node → Node
  | .nil => .nil
  | .mk d c => .mk { d with unloaded := true, chunkHash := hash } c

/-! ## Loading -/

/-- What `GetChunk` answers. -/
inductive ChunkRead where
  | err
  | notFound
  | found (chunk : Bytes)

/-- The read side of a `deep.StorageLayer`. -/
abbrev Reader := Bytes → ChunkRead

/-- Row `j` of a node chunk: no child where the hash is blank, a subtree still to be loaded
where the key is blank, else a terminal. Slicing past the end of the chunk panics. -/
def loadRow (level : ℤ) (chunk : Bytes) (j : Fin 16) (old : Node) : Go Node :=
  let o := j * bytesPerChild
  if chunk.length < o + 40 then .error .indexOutOfRange
  else if Bytes.slice chunk (o + 8) 32 = Bytes.zeros 32 then .ok old
  else if chunk.length < o + 88 then .error .indexOutOfRange
  else
    let blank := decide (Bytes.slice chunk o 8 = Bytes.zeros 8)
    .ok (.mk
      { newData (level - bitsPerPiece) with
        terminal := !blank
        unloaded := blank
        key := if blank then default else toKey (Bytes.slice chunk o 8)
        chunkHash := Bytes.slice chunk (o + 8) 32
        storageBytes := bytesToUint64 (Bytes.slice chunk (o + 40) 8)
        merkleRoot := Bytes.slice chunk (o + 48) 32
        blockNum := bytesToUint64 (Bytes.slice chunk (o + 80) 8) }
      fun _ => .nil)

/-- `load`: a node whose chunk cannot be read keeps its (absent) children and stays
unloaded. -/
def load (pcs : Reader) (d : NodeData) (c : Fin 16 → Node) : Go (NodeData × (Fin 16 → Node)) :=
  if d.unloaded then
    match pcs d.chunkHash with
    | .err => .ok (d, c)
    | .notFound => .ok (d, c)
    | .found chunk => do
        let c' ← collect fun j => loadRow d.level chunk j (c j)
        .ok ({ d with unloaded := false }, c')
  else .ok (d, c)

/-! ## Insertion and deletion -/

/-- The total of the children's `storageBytes`. -/
def totalBytes (c : Fin 16 → Node) : UInt64 :=
  (List.finRange 16).foldl
    (fun tot i => match c i with
      | .nil => tot
      | .mk d _ => tot + d.storageBytes) 0

/-- The terminal that `insert` puts into an empty slot. -/
def newTerminal (level : ℤ) (k : Key) (v : Bytes) (storageBytes blockNum : UInt64) : Node :=
  .mk { newData level with
        terminal := true, key := k, chunkHash := v, dirty := true
        storageBytes := storageBytes, blockNum := blockNum } fun _ => .nil

/-- What `insert` leaves in the slot of the key, in a node of this level; `ins` is `insert`
itself, one key piece further down. -/
def insertChild (ins : Key → Bytes → UInt64 → UInt64 → Node → Go Node) (level : ℤ) (k : Key)
    (v : Bytes) (storageBytesNew blockNum : UInt64) : Node → Go Node
  | .nil => .ok (newTerminal (level - bitsPerPiece) k v storageBytesNew blockNum)
  | .mk d c =>
    if d.terminal then
      if d.key = k then
        .ok (if d.chunkHash = v then .mk d c
          else .mk { d with
            dirty := true, chunkHash := v, blockNum := blockNum
            storageBytes := d.storageBytes + storageBytesNew } c)
      else do
        -- two keys: the terminal becomes an inner node and both are put below it
        let child ← ins d.key d.chunkHash d.storageBytes d.blockNum
          (.mk { d with dirty := true, terminal := false } c)
        ins k v storageBytesNew blockNum child
    else ins k v storageBytesNew blockNum (.mk d c)

/-- `insert` -/
def insert (pcs : Reader) : ℕ → Key → Bytes → UInt64 → UInt64 → Node → Go Node
  | _, _, _, _, _, .nil => .error .nilDereference
  | 0, _, _, _, _, .mk d c => do
      let (d, c) ← load pcs d c
      .ok (.mk d c)
  | r + 1, k, v, storageBytesNew, blockNum, .mk d c => do
      let (d, c) ← load pcs d c
      let idx := keypiece k (nkeypieces - (r + 1))
      let child ← insertChild (insert pcs r) d.level k v storageBytesNew blockNum (c idx)
      let c := Function.update c idx child
      .ok (.mk { d with dirty := true, storageBytes := totalBytes c } c)

/-- `delete`: the new node and the flag `ok`. Children are not loaded on the way down. -/
def delete : ℕ → Key → Node → Node × Bool
  | 0, _, n => (n, false)
  | _ + 1, _, .nil => (.nil, false)
  | r + 1, k, .mk d c =>
      let idx := keypiece k (nkeypieces - (r + 1))
      match c idx with
      | .nil => (.mk d c, false)
      | .mk cd cc =>
        if cd.terminal then
          if k = cd.key then (.mk { d with dirty := true } (Function.update c idx .nil), false)
          else (.mk d c, false)
        else
          let (child, ok) := delete r k (.mk cd cc)
          (.mk { d with dirty := d.dirty || ok } (Function.update c idx child), ok)

/-! ## Lookup -/

/-- What a lookup that finds its key returns: the value and the two accounting fields. -/
structure Entry where
  value : Bytes
  storageBytes : UInt64
  blockNum : UInt64
deriving DecidableEq

/-- `get`: the entry, and the node with what was loaded on the way. At `r = 0` the key has no
piece left to read. -/
def get (pcs : Reader) : ℕ → Key → Node → Go (Option Entry × Node)
  | _, _, .nil => .error .nilDereference
  | 0, _, .mk _ _ => .error .indexOutOfRange
  | r + 1, k, .mk d c => do
      let (d, c) ← load pcs d c
      let idx := keypiece k (nkeypieces - (r + 1))
      match c idx with
      | .nil => .ok (none, .mk d c)
      | .mk cd cc =>
        if cd.terminal then
          if k = cd.key then .ok (some ⟨cd.chunkHash, cd.storageBytes, cd.blockNum⟩, .mk d c)
          else .ok (none, .mk d c)
        else do
          let (res, child) ← get pcs r k (.mk cd cc)
          .ok (res, .mk d (Function.update c idx child))

/-! ## Merkle roots -/

section
variable (keccak : Bytes → Hash)

/-- `Keccak256(a, b)` -/
def hashPair (a b : Bytes) : Bytes := (keccak (a ++ b)).1

/-- `ComputeDefaultHashes`: entry `l` is the root of an empty subtree of height `l`. -/
def defaultHashes : ℕ → Bytes
  | 0 => (keccak []).1
  | l + 1 => hashPair keccak (defaultHashes l) (defaultHashes l)

/-- The value of `cur` after `i` rounds of the loop over the bits of a terminal's key. -/
def terminalHash (k : Key) (v : Bytes) : ℕ → Bytes
  | 0 => v
  | i + 1 =>
    if keyBit k i then hashPair keccak (defaultHashes keccak i) (terminalHash k v i)
    else hashPair keccak (terminalHash k v i) (defaultHashes keccak i)

/-- `computeMerkleRoot` of a terminal. The loop runs while `i <= uint(n.level)`: a negative
level is a huge bound there, and the loop leaves the key and the table of default hashes at
`i = 64`. -/
def terminalRoot (d : NodeData) : Go Bytes :=
  if 0 ≤ d.level ∧ d.level < treeDepth then
    .ok (terminalHash keccak d.key d.chunkHash (d.level.toNat + 1))
  else .error .indexOutOfRange

/-- The root that a parent sees in a child slot: the default hash where there is none. -/
def slotRoot (dh : Bytes) : Node → Bytes
  | .nil => dh
  | .mk d _ => d.merkleRoot

/-- `mrcache[bitsPerPiece - j][i]` over the 16 slots. -/
def mrcache (slots : Fin 16 → Bytes) : ℕ → ℕ → Bytes
  | 0, i => slots (Fin.ofNat 16 i)
  | j + 1, i => hashPair keccak (mrcache slots j (2 * i)) (mrcache slots j (2 * i + 1))

/-- The slots of a node, with `dh = defaultHashes[n.level-startlevel]`. -/
def slots (level : ℤ) (c : Fin 16 → Node) (i : Fin 16) : Bytes :=
  slotRoot (defaultHashes keccak (level - 3).toNat) (c i)

/-- `computeMerkleRootCache`: the new `merkleRoot`. -/
def computeMerkleRootCache (level : ℤ) (c : Fin 16 → Node) : Go Bytes :=
  if 3 ≤ level ∧ level < treeDepth + 3 then
    .ok (mrcache keccak (slots keccak level c) bitsPerPiece 0)
  else .error .indexOutOfRange

/-- Run `f` on a child if there is one. -/
def onChild (f : Node → Go Node) : Node → Go Node
  | .nil => .ok .nil
  | .mk d c => f (.mk d c)

/-- `computeMerkleRoot`, for a recursion of at most `fuel` nodes. Deeper nodes are below a
non-terminal of negative level, whose own access to `defaultHashes` panics when, or if, the
recursion comes back to it. -/
def computeMerkleRoot (pcs : Reader) : ℕ → Node → Go Node
  | _, .nil => .error .nilDereference
  | 0, .mk _ _ => .error .stackOverflow
  | fuel + 1, .mk d c => do
      let (d, c) ← load pcs d c
      if d.terminal then do
        let root ← terminalRoot keccak d
        .ok (.mk { d with merkleRoot := root } c)
      else do
        let c ← collect fun i => onChild (computeMerkleRoot pcs fuel) (c i)
        let root ← computeMerkleRootCache keccak d.level c
        .ok (.mk { d with merkleRoot := root } c)

/-! ## Proofs -/

end

/-- `smt.Proof` -/
structure Proof where
  key : Key
  proof : List Bytes
  proofBits : UInt64
deriving DecidableEq

/-- The position next to `i`. -/
def sisterIndex (i : ℕ) : ℕ := if i % 2 = 1 then i - 1 else i + 1

/-- `p.proofBits |= uint64(1) << uint64(e)` -/
def setBit (bits : UInt64) (e : ℤ) : UInt64 :=
  if 0 ≤ e ∧ e < 64 then bits ||| ((1 : UInt64) <<< UInt64.ofNat e.toNat) else bits

section
variable (keccak : Bytes → Hash)

/-- One round of the loop over the levels of a node, `level = bitsPerPiece - j`. -/
def proofRound (level : ℤ) (c : Fin 16 → Node) (idx : ℕ) (p : Proof) (j : ℕ) : Proof :=
  let p0 := mrcache keccak (slots keccak level c) j (sisterIndex (idx / 2 ^ j))
  if p0 = defaultHashes keccak (treeDepth - bitsPerPiece + j) then p
  else { p with proof := p.proof ++ [p0], proofBits := setBit p.proofBits (level - 3 + j) }

/-- The proof below the child on the path; `gen` is `generateProof` of that child. -/
def childProof (gen : Proof → Node → Go (Bool × Proof × Node)) (p : Proof) (d : NodeData)
    (c : Fin 16 → Node) : Go (Bool × Proof × Node) :=
  if d.terminal then .ok (true, { p with proofBits := 0 }, .mk d c) else gen p (.mk d c)

/-- `generateProof`: the flag `ok`, the proof and the node. -/
def generateProof (pcs : Reader) : ℕ → Key → Proof → Node → Go (Bool × Proof × Node)
  | _, _, _, .nil => .error .nilDereference
  | 0, _, _, .mk _ _ => .error .indexOutOfRange
  | r + 1, k, p, .mk d c => do
      let (d, c) ← load pcs d c
      let idx := keypiece k (nkeypieces - (r + 1))
      match c idx with
      | .nil => .ok (false, p, .mk d c)
      | .mk cd cc => do
        let (cd, cc) ← load pcs cd cc
        let (ok, p, child) ← childProof (generateProof pcs r k) p cd cc
        let c := Function.update c idx child
        if ok then do
          let root ← computeMerkleRootCache keccak d.level c
          .ok (true, (List.range bitsPerPiece).foldl (proofRound keccak d.level c idx) p,
            .mk { d with merkleRoot := root } c)
        else .ok (false, p, .mk d c)

/-- The state of the loop of `Proof.Check` after `i` rounds: the running hash and the proof
hashes that are left. -/
def checkLoop (p : Proof) (v : Bytes) : ℕ → Go (Bytes × List Bytes)
  | 0 => .ok (v, p.proof)
  | i + 1 => do
      let (cur, rest) ← checkLoop p v i
      let (sib, rest) ←
        if ((1 : UInt64) <<< UInt64.ofNat i) &&& p.proofBits > 0 then
          match rest with
          | [] => .error .indexOutOfRange
          | s :: rest => .ok (s, rest)
        else .ok (defaultHashes keccak i, rest)
      .ok (if keyBit p.key i then hashPair keccak sib cur else hashPair keccak cur sib, rest)

/-- `Proof.Check` -/
def Proof.check (p : Proof) (v root : Bytes) : Go Bool := do
  let (cur, _) ← checkLoop keccak p v treeDepth
  .ok (decide (cur = root))

/-- `Proof.Bytes`: the bits, then the hashes. -/
def Proof.bytes (p : Proof) : Bytes := uInt64ToByte p.proofBits ++ p.proof.flatten

/-! ## Flushing -/

/-- The row of a child in its parent's chunk. -/
def row : Node → Bytes
  | .nil => Bytes.zeros bytesPerChild
  | .mk d _ =>
    (if d.terminal then d.key.1 else Bytes.zeros 8) ++ Bytes.fit 32 d.chunkHash
      ++ uInt64ToByte d.storageBytes ++ Bytes.fit 32 d.merkleRoot ++ uInt64ToByte d.blockNum

/-- The chunk of a node with these rows. -/
def nodeChunk (f : Fin 16 → Bytes) : Bytes :=
  Bytes.rows f ++ Bytes.zeros (chunkSize - 16 * bytesPerChild)

/-- Whether `flush` recurses into a child. -/
def isInner : Node → Bool
  | .nil => false
  | .mk d _ => !d.terminal

/-- `flush`: the node and the `SetChunk` calls issued, in order. -/
def flush : Node → Node × List (Bytes × Bytes)
  | .nil => (.nil, [])
  | .mk d c =>
    if d.dirty then
      let child := fun j => if isInner (c j) then flush (c j) else (c j, [])
      let chunk := nodeChunk fun j => row (child j).1
      let chunkID := (keccak chunk).1
      (.mk { d with chunkHash := chunkID, dirty := false } fun j => (child j).1,
        ((List.finRange 16).flatMap fun j => (child j).2) ++ [(chunkID, chunk)])
    else (.mk d c, [])

end

end GoPlasma.Smt
