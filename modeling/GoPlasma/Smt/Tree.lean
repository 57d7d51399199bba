import GoPlasma.Smt.Node
import GoPlasma.Lib.BinTree

/-!
# Sparse Merkle trees on a shared chunk store (`smt/smt.go`)

A `SparseMerkleTree` is its root node: the table of default hashes is a constant, and the
chunk store is passed to every call. `Call` collects the calls on one tree, `Op` the life of
several trees on one store: new trees, calls on them, and trees opened again from what an
earlier `Flush` reported.

The last section is the purpose of the component: a tree is a map from keys to entries, and
its Merkle root is the root of the complete binary tree of depth 64 over that map.
-/

namespace GoPlasma.Smt

/-! ## The chunk store -/

/-- The `SetChunk` calls made so far, latest first. The goroutines of a flush have all been
waited for. -/
abbrev Store := List (Bytes × Bytes)

/-- `GetChunk` of a store that works. -/
def Store.getChunk (s : Store) : Reader := fun k =>
  match s.lookup k with
  | none => .notFound
  | some chunk => .found chunk

/-- The store after the given `SetChunk` calls. -/
def Store.setChunks (s : Store) (writes : List (Bytes × Bytes)) : Store := writes.reverse ++ s

namespace SparseMerkleTree

/-! ## The methods -/

/-- `ChunkHash`, before the conversion to a `common.Hash`. -/
def rootHash : Node → Bytes
  | .nil => []
  | .mk d _ => d.chunkHash

/-- The `merkleRoot` of the root node. -/
def rootMerkle : Node → Bytes
  | .nil => []
  | .mk d _ => d.merkleRoot

/-- `NewSparseMerkleTree` -/
def new : Node := newNode (treeDepth - 1)

/-- `Init` -/
def init (hash : Hash) (t : Node) : Node := setHash hash.1 t

/-- `InitWithRoot` -/
def initWithRoot (cs : Reader) (merkleroot : Hash) (t : Node) : Bool × Node :=
  match cs merkleroot.1 with
  | .found chunkHash => if chunkHash.length = 0 then (false, t) else (true, setHash chunkHash t)
  | .err => (false, t)
  | .notFound => (false, t)

/-- `ChunkHash` -/
def chunkHash (t : Node) : Hash := bytesToHash (rootHash t)

/-- `MerkleRoot` -/
def merkleRoot (t : Node) : Hash := bytesToHash (rootMerkle t)

/-- `Insert` -/
def insert (cs : Reader) (k : Key) (v : Bytes) (storageBytesNew blockNum : UInt64) (t : Node) :
    Go Node :=
  Smt.insert cs nkeypieces k v storageBytesNew blockNum t

/-- `Delete` -/
def delete (k : Key) (t : Node) : Node := (Smt.delete nkeypieces k t).1

section
variable (keccak : Bytes → Hash)

/-- `Flush`: the tree, and the `SetChunk` calls of `flush` and `flushRoot`. -/
def flush (cs : Reader) (t : Node) : Go (Node × List (Bytes × Bytes)) := do
  let t ← computeMerkleRoot keccak cs (nkeypieces + 1) t
  let (t, writes) := Smt.flush keccak t
  .ok (t, writes ++ [(rootMerkle t, rootHash t)])

/-- The results of `Get`; `v0`, `storageBytes` and `prevBlock` are zero values where nothing
was found. -/
structure Found where
  v0 : Bytes
  found : Bool
  p : Option Proof
  storageBytes : UInt64
  prevBlock : UInt64
  err : Option String
deriving DecidableEq

/-- `Get` -/
def get (cs : Reader) (k : Key) (t : Node) : Go (Found × Node) := do
  let (res, t) ← Smt.get cs nkeypieces k t
  match res with
  | none => .ok (⟨[], false, none, 0, 0, none⟩, t)
  | some e => do
    let (ok, p, t) ← generateProof keccak cs nkeypieces k ⟨k, [], 0⟩ t
    let err := if ok then none else some "NO proof"
    .ok (⟨e.value, true, some p, e.storageBytes, e.blockNum, err⟩, t)

/-- `GenerateProof`: there is a proof whatever `generateProof` returns. -/
def generateProof (cs : Reader) (k : Key) (t : Node) : Go (Proof × Node) := do
  let (_, p, t) ← Smt.generateProof keccak cs nkeypieces k ⟨k, [], 0⟩ t
  .ok (p, t)

end

end SparseMerkleTree

/-! ## Calls on one tree -/

/-- A call on a tree. -/
inductive Call where
  | insert (k : Key) (v : Bytes) (storageBytesNew blockNum : UInt64)
  | delete (k : Key)
  | get (k : Key)
  | flush

section
variable (keccak : Bytes → Hash)

/-- The tree and the store after a call. -/
def Call.exec (call : Call) (s : Store) (t : Node) : Go (Node × Store) :=
  match call with
  | .insert k v storageBytesNew blockNum => do
      let t ← SparseMerkleTree.insert s.getChunk k v storageBytesNew blockNum t
      .ok (t, s)
  | .delete k => .ok (SparseMerkleTree.delete k t, s)
  | .get k => do
      let (_, t) ← SparseMerkleTree.get keccak s.getChunk k t
      .ok (t, s)
  | .flush => do
      let (t, writes) ← SparseMerkleTree.flush keccak s.getChunk t
      .ok (t, s.setChunks writes)

/-- The tree and the store after a sequence of calls. -/
def execAll : List Call → Store → Node → Go (Node × Store)
  | [], s, t => .ok (t, s)
  | call :: calls, s, t => do
      let (t, s) ← call.exec keccak s t
      execAll calls s t

theorem execAll_append (calls calls' : List Call) (s : Store) (t : Node) :
    execAll keccak (calls ++ calls') s t = (do
      let (t, s) ← execAll keccak calls s t
      execAll keccak calls' s t) := by
  induction calls generalizing s t with
  | nil => rfl
  | cons call calls ih =>
    rw [List.cons_append, execAll, execAll]
    rcases call.exec keccak s t with e | ⟨t₁, s₁⟩
    · rfl
    · exact ih s₁ t₁

variable {keccak} in
theorem execAll_concat_flush {calls : List Call} {s s' : Store} {n n' : Node}
    (h : execAll keccak (calls ++ [.flush]) s n = .ok (n', s')) :
    ∃ n₁ s₁ writes, execAll keccak calls s n = .ok (n₁, s₁)
      ∧ SparseMerkleTree.flush keccak s₁.getChunk n₁ = .ok (n', writes)
      ∧ s' = s₁.setChunks writes := by
  rw [execAll_append] at h
  rcases hc : execAll keccak calls s n with e | ⟨n₁, s₁⟩
  · simp only [hc, bind, Except.bind] at h
    cases h
  · rcases hf : SparseMerkleTree.flush keccak s₁.getChunk n₁ with e | ⟨n₂, writes⟩
    · simp only [hc, execAll, Call.exec, hf, bind, Except.bind] at h
      cases h
    · simp only [hc, execAll, Call.exec, hf, bind, Except.bind] at h
      obtain ⟨rfl, rfl⟩ := Prod.mk.inj (Except.ok.inj h)
      exact ⟨n₁, s₁, writes, rfl, hf, rfl⟩

/-! ## Several trees on one store -/

/-- What a `Flush` left: the tree in memory right after it, and the store. -/
structure Flushed where
  tree : Node
  store : Store

/-- The store, the trees in memory, and the flushes so far. -/
structure World where
  store : Store
  trees : List Node
  flushed : List Flushed

/-- How a tree is opened again: `Init` with the `ChunkHash` of a flush, or `InitWithRoot` with
its `MerkleRoot`. -/
inductive Handle where
  | chunkHash
  | merkleRoot
deriving DecidableEq

/-- A new tree, opened at an earlier flush. -/
def Handle.open (via : Handle) (s : Store) (f : Flushed) : Node :=
  match via with
  | .chunkHash => SparseMerkleTree.init (SparseMerkleTree.chunkHash f.tree) SparseMerkleTree.new
  | .merkleRoot =>
    (SparseMerkleTree.initWithRoot s.getChunk (SparseMerkleTree.merkleRoot f.tree)
      SparseMerkleTree.new).2

/-- A step of the world: trees and flushes are named by their positions. -/
inductive Op where
  | new
  | call (i : ℕ) (c : Call)
  | reopen (j : ℕ) (via : Handle)

/-- The flush record a call leaves. -/
def Call.record (c : Call) (t : Node) (s : Store) : List Flushed :=
  match c with
  | .flush => [⟨t, s⟩]
  | _ => []

/-- One step; a position that does not exist changes nothing. -/
def step (w : World) (op : Op) : Go World :=
  match op with
  | .new => .ok { w with trees := w.trees ++ [SparseMerkleTree.new] }
  | .call i c =>
    match w.trees[i]? with
    | none => .ok w
    | some t => do
      let (t, s) ← c.exec keccak w.store t
      .ok ⟨s, w.trees.set i t, w.flushed ++ c.record t s⟩
  | .reopen j via =>
    match w.flushed[j]? with
    | none => .ok w
    | some f => .ok { w with trees := w.trees ++ [via.open w.store f] }

/-- The start: an empty store. -/
def World.empty : World := ⟨[], [], []⟩

/-- The world after a run. -/
def run (ops : List Op) : Go World := ops.foldlM (step keccak) World.empty

end

/-! ## What the trees are for -/

/-- The contents of a tree. -/
abbrev Contents := Key → Option Entry

/-- What inserting does to the entry of its key: nothing where the value is the same; a new
value adds to the storage that is accounted for. -/
def updateEntry (v : Bytes) (storageBytesNew blockNum : UInt64) : Option Entry → Entry
  | none => ⟨v, storageBytesNew, blockNum⟩
  | some e =>
    if e.value = v then e else ⟨v, e.storageBytes + storageBytesNew, blockNum⟩

/-- What a lookup should answer: value, found flag and the two accounting fields. -/
def answerOf : Option Entry → Bytes × Bool × UInt64 × UInt64
  | none => ([], false, 0, 0)
  | some e => (e.value, true, e.storageBytes, e.blockNum)

/-- What `Get` answered. -/
def SparseMerkleTree.Found.answer (f : SparseMerkleTree.Found) : Bytes × Bool × UInt64 × UInt64 :=
  (f.v0, f.found, f.storageBytes, f.prevBlock)

/-- The contents after a call. -/
def Call.apply (c : Call) (m : Contents) : Contents :=
  match c with
  | .insert k v storageBytesNew blockNum =>
    Function.update m k (some (updateEntry v storageBytesNew blockNum (m k)))
  | .delete k => Function.update m k none
  | .get _ => m
  | .flush => m

/-- The contents of a new tree. -/
def Contents.empty : Contents := fun _ => none

/-- The contents after a sequence of calls. -/
def Contents.after (calls : List Call) (m : Contents) : Contents :=
  calls.foldl (fun m c => c.apply m) m

/-- The key that a number denotes. -/
def keyOf (n : ℕ) : Key := ⟨Bytes.toBE 8 n, Bytes.length_toBE 8 n⟩

/-- Leaf `n` of the complete tree: the value of the `n`-th key, or `Keccak256()`. -/
def Contents.leaf (keccak : Bytes → Hash) (m : Contents) (n : ℕ) : Bytes :=
  match m (keyOf n) with
  | none => (keccak []).1
  | some e => e.value

/-- The root of the complete binary tree of depth 64 over the contents. -/
def Contents.root (keccak : Bytes → Hash) (m : Contents) : Bytes :=
  BinTree.root (hashPair keccak) (m.leaf keccak) treeDepth 0

/-- The contents that a call records as flushed. -/
def Call.recordContents (c : Call) (m : Contents) : List Contents :=
  match c with
  | .flush => [m]
  | _ => []

/-- The contents of every tree and of every flush. -/
structure Ideal where
  trees : List Contents
  flushed : List Contents

/-- The contents after a step: a tree opened again has the contents of its flush. -/
def Ideal.step (a : Ideal) (op : Op) : Ideal :=
  match op with
  | .new => { a with trees := a.trees ++ [Contents.empty] }
  | .call i c =>
    match a.trees[i]? with
    | none => a
    | some m => ⟨a.trees.set i (c.apply m), a.flushed ++ c.recordContents m⟩
  | .reopen j _ =>
    match a.flushed[j]? with
    | none => a
    | some m => { a with trees := a.trees ++ [m] }

/-- The contents after a run. -/
def ideal (ops : List Op) : Ideal := ops.foldl Ideal.step ⟨[], []⟩

end GoPlasma.Smt
