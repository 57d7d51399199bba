import GoPlasma.Basic
import GoPlasma.Deep.Raft

/-!
# A cluster of raft nodes (`deep/handler.go`, `deep/minter.go`)

The nodes of a cluster mint, propose and apply blocks at the same time. `mintNewBlock` takes the
current block as the parent and posts a block made on it, `serveLocalProposals` proposes what was
posted, raft puts proposals into the log in some order or loses them, and `eventLoop` of each node
applies the log in batches. `blockExtendsChain` always returns true, so `applyNewChainHead` inserts
whatever block it is given.

The package is generic in the blocks and in the chain, and so is `Network`. Decoding is done in
place: the block that a node decodes into may share memory with its current block.

A panic ends the process, and a node that starts again has the block of `NewBlock()` as its current
block (`loadLastState` in `plasmachain/backend.go`), with an applied index that may be older than
the last one.
-/

namespace GoPlasma.Deep

/-- What raft logs: changes of the configuration, and the data of normal entries. -/
inductive LogData where
  | confChange
  | normal (data : Bytes)
deriving DecidableEq

/-- The methods of the blocks and of the chain, and what is fixed for the cluster: the chain of
every node starts with `newBlock` and writes to the storage of the node, and `blockformat` is the
block that every manager is given to decode into. `InsertChain` writes its block to the storage and
makes a copy of it the current one. -/
structure Network (ν σ β : Type) where
  hash : β → Hash
  parentHash : β → Hash
  numberU64 : β → UInt64
  /-- `Encode`; `none` is an error. -/
  encode : β → Option Bytes
  /-- `rlp.DecodeBytes` into a new block; `none` is an error. -/
  decode : Bytes → Option β
  /-- What a block is after `rlp.DecodeBytes` into it; the error is only logged. -/
  decodeInto : Bytes → β → β
  /-- What a block is after the data were decoded into the one that `InsertChain` has copied it
  from, with which it may share what it points to. -/
  shared : Bytes → β → β
  /-- `HasBlock`, of the blocks in the storage and what it is asked for. -/
  hasBlock : List β → Hash → UInt64 → Bool
  /-- `GetBlockByHash` does not return nil. -/
  getBlockByHash : List β → Hash → Bool
  /-- `ValidateBody` returns nil: on an error the node panics, and the call may panic itself. -/
  validateBody : β → Bool
  newBlock : β
  blockformat : β
  storage : ν → σ

/-- How far a block is on its way into the log. -/
inductive Stage (β : Type) where
  /-- A call of `mintNewBlock` is at work on this parent. -/
  | running (i : ℕ) (parent : β)
  /-- It has been posted. -/
  | posted (block : β)
  /-- `serveLocalProposals` has received it. -/
  | received (block : β)
  /-- It has been proposed to raft. -/
  | proposed (data : Bytes)
deriving DecidableEq

/-- A node, with the block that was current when the batch came and the entries of the batch that
are left. -/
structure RaftNode (β : Type) where
  currentBlock : β
  blockformat : β
  appliedIndex : UInt64
  captured : β
  pending : List (Entry LogData)
  minter : Minter

/-- The nodes, the committed log, and what is on its way into it; the blocks that chains have
written to their storage, the last one first; and the blocks that nodes have applied, each with the
block that was current before. -/
structure Cluster (ν σ β : Type) where
  nodes : ν → RaftNode β
  log : List LogData
  flight : List (ν × Stage β)
  written : List (σ × β)
  applied : List (ν × β × β)

/-- What can happen on the node `j`, or in raft. -/
inductive Event (ν β : Type) where
  /-- The call `i` of `mintNewBlock`, as in `MinterEvent`; it takes the parent after `lock`. -/
  | load (j : ν) (i : ℕ)
  | store (j : ν) (i : ℕ)
  | lock (j : ν) (i : ℕ)
  | empty (j : ν) (i : ℕ)
  | flushFails (j : ν) (i : ℕ)
  | post (j : ν) (i : ℕ) (block : β)
  | start (j : ν)
  /-- `serveLocalProposals` -/
  | receive (j : ν) (block : β)
  | reset (j : ν)
  | propose (j : ν) (block : β)
  /-- Raft commits a proposal of the node, or loses it. -/
  | commit (j : ν) (data : Bytes)
  | lose (j : ν) (data : Bytes)
  /-- Raft commits an entry of its own. -/
  | commitEmpty
  | commitConfChange
  /-- `eventLoop` gets a batch: the index of a snapshot, which is empty at 0, and the `len` entries
  of the log after the first `lo`. -/
  | ready (j : ν) (snapshot : UInt64) (lo len : ℕ)
  /-- It goes on to the next entry of the batch. -/
  | apply (j : ν)
  /-- The node starts again, with this applied index. -/
  | restart (j : ν) (appliedIndex : UInt64)

/-- The `len` entries of the log after the first `lo`. -/
def entries (log : List LogData) (lo len : ℕ) : List (Entry LogData) :=
  (((log.drop lo).take len).zipIdx lo).map fun x => ⟨UInt64.ofNat (x.2 + 1), x.1⟩

/-- The block stays in the hands of raft when its node goes down. -/
def Stage.isProposed {β : Type} : Stage β → Bool
  | .proposed _ => true
  | _ => false

/-- The parent that the call `i` has taken. -/
def Stage.parent? {β : Type} (i : ℕ) : Stage β → Option β
  | .running i' parent => if i' = i then some parent else none
  | _ => none

/-- The parent that a call has taken is changed. -/
def Stage.mapParent {β : Type} (f : β → β) : Stage β → Stage β
  | .running i parent => .running i (f parent)
  | stage => stage

section
variable {ν σ β : Type} [DecidableEq ν] [DecidableEq σ] [DecidableEq β]

/-- A node is changed. -/
def Cluster.set (j : ν) (n : RaftNode β) (s : Cluster ν σ β) : Cluster ν σ β :=
  { s with nodes := Function.update s.nodes j n }

/-- An event of the minter of a node. -/
def Cluster.flag (j : ν) (e : MinterEvent) (s : Cluster ν σ β) : Option (Cluster ν σ β) :=
  ((s.nodes j).minter.step e).map fun m => s.set j { s.nodes j with minter := m }

/-- The call is over. -/
def Cluster.leave (j : ν) (i : ℕ) (s : Cluster ν σ β) : Cluster ν σ β :=
  { s with flight := s.flight.filter fun x => decide (x.1 ≠ j) || (x.2.parent? i).isNone }

/-- The parent that the call has taken. -/
def Cluster.parent? (j : ν) (i : ℕ) (s : Cluster ν σ β) : Option β :=
  s.flight.findSome? fun x => if x.1 = j then x.2.parent? i else none

/-- A block goes from one stage to the next. -/
def Cluster.move (j : ν) (a b : Stage β) (s : Cluster ν σ β) : Option (Cluster ν σ β) :=
  if (j, a) ∈ s.flight then some { s with flight := s.flight.erase (j, a) ++ [(j, b)] } else none

/-- Raft appends an entry; its index is a `uint64`. -/
def Cluster.append (d : LogData) (s : Cluster ν σ β) : Option (Cluster ν σ β) :=
  if s.log.length + 1 < 2 ^ 64 then some { s with log := s.log ++ [d] } else none

/-- A batch comes. -/
def Cluster.ready (j : ν) (snapshot : UInt64) (lo len : ℕ) (s : Cluster ν σ β) :
    Option (Cluster ν σ β) :=
  let n := s.nodes j
  let base := if snapshot ≠ 0 then snapshot else n.appliedIndex
  if n.pending.isEmpty ∧ n.appliedIndex ≤ base ∧ base.toNat ≤ s.log.length ∧ lo ≤ base.toNat then
    match entriesToApply base (entries s.log lo len) with
    | .ok l =>
      some (s.set j { n with captured := n.currentBlock, appliedIndex := base, pending := l })
    | .error _ => none
  else none

namespace Network

variable (N : Network ν σ β)

/-- A node that has just been started. -/
def newNode (appliedIndex : UInt64) : RaftNode β :=
  ⟨N.newBlock, N.blockformat, appliedIndex, N.newBlock, [], newMinter⟩

/-- A new cluster. -/
def init : Cluster ν σ β := ⟨fun _ => N.newNode 0, [], [], [], []⟩

/-- What `Commit` and `MakeBlock` write into a block on this parent. -/
def Extends (parent b : β) : Prop :=
  N.parentHash b = N.hash parent ∧ N.numberU64 b = N.numberU64 parent + 1

instance decidableExtends (parent b : β) : Decidable (N.Extends parent b) :=
  inferInstanceAs (Decidable (_ ∧ _))

/-- The blocks that were written to the storage of a node. -/
def blocks (j : ν) (s : Cluster ν σ β) : List β :=
  (s.written.filter fun w => decide (w.1 = N.storage j)).map Prod.snd

/-- Data are decoded in place: the current block, and those that were the current one when a batch
came or a call of `mintNewBlock` began, may change. -/
def overwrite (j : ν) (data : Bytes) (s : Cluster ν σ β) : Cluster ν σ β :=
  let n := s.nodes j
  { s.set j { n with
      currentBlock := N.shared data n.currentBlock
      captured := N.shared data n.captured } with
    flight := s.flight.map fun x => if x.1 = j then (x.1, x.2.mapParent (N.shared data)) else x }

/-- `applyNewChainHead`, as far as `InsertChain` changes the chain. -/
def applyNewChainHead (j : ν) (block : β) (s : Cluster ν σ β) : Cluster ν σ β :=
  { s.set j { s.nodes j with currentBlock := block } with
    written := (N.storage j, block) :: s.written
    applied := s.applied ++ [(j, (s.nodes j).currentBlock, block)] }

/-- What is decoded of an entry, if it is looked at. -/
def payload : LogData → Option Bytes
  | .confChange => none
  | .normal data => if data.length = 0 then none else some data

/-- The next entry of the batch. A block that is not found by its hash and does not pass
`ValidateBody` is a panic, after which the node can only start again. -/
def applyEntry (j : ν) (s : Cluster ν σ β) : Option (Cluster ν σ β) :=
  match (s.nodes j).pending with
  | [] => none
  | e :: rest =>
    match payload e.data with
    | none => some (s.set j { s.nodes j with appliedIndex := e.index, pending := rest })
    | some data =>
      let s := N.overwrite j data s
      let block := N.decodeInto data (s.nodes j).blockformat
      let n := { s.nodes j with blockformat := block, appliedIndex := e.index, pending := rest }
      if N.hasBlock (N.blocks j s) (N.hash block) (N.numberU64 block)
          && decide (N.numberU64 n.captured = N.numberU64 block) then
        some (s.set j n)
      else if N.getBlockByHash (N.blocks j s) (N.hash block) || N.validateBody block then
        some (N.applyNewChainHead j block (s.set j n))
      else none

/-- One event, if it can happen. -/
def step (s : Cluster ν σ β) : Event ν β → Option (Cluster ν σ β)
  | .load j i => s.flag j (.load i)
  | .store j i => s.flag j (.store i)
  | .lock j i => do
      let s' ← s.flag j (.lock i)
      some { s' with flight := s'.flight ++ [(j, .running i (s.nodes j).currentBlock)] }
  | .empty j i => do
      let s' ← s.flag j (.empty i)
      some (s'.leave j i)
  | .flushFails j i => do
      let s' ← s.flag j (.flushFails i)
      some (s'.leave j i)
  | .post j i block => do
      let parent ← s.parent? j i
      if N.Extends parent block then
        let s' ← s.flag j (.post i)
        s'.move j (.running i parent) (.posted block)
      else none
  | .start j => s.flag j .start
  | .receive j block => do
      let s' ← s.flag j .receive
      s'.move j (.posted block) (.received block)
  | .reset j => s.flag j .reset
  | .propose j block =>
      if (s.nodes j).minter.taking then none
      else s.move j (.received block) (.proposed ((N.encode block).getD []))
  | .commit j data =>
      if (j, .proposed data) ∈ s.flight then
        ({ s with flight := s.flight.erase (j, .proposed data) }).append (.normal data)
      else none
  | .lose j data => some { s with flight := s.flight.erase (j, .proposed data) }
  | .commitEmpty => s.append (.normal [])
  | .commitConfChange => s.append .confChange
  | .ready j snapshot lo len => s.ready j snapshot lo len
  | .apply j => N.applyEntry j s
  | .restart j appliedIndex =>
      if appliedIndex ≤ (s.nodes j).appliedIndex then
        some { s.set j (N.newNode appliedIndex) with
          flight := s.flight.filter fun x => decide (x.1 ≠ j) || x.2.isProposed }
      else none

/-- Events one after another, in a new cluster. -/
def run (es : List (Event ν β)) : Option (Cluster ν σ β) := es.foldlM N.step N.init

end Network

end

end GoPlasma.Deep
