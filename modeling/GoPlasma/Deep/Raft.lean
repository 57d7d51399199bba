import Mathlib.Tactic

/-!
# Applying the raft log and minting (`deep/handler.go`, `deep/minter.go`)

`eventLoop` takes what raft has committed, in batches that may overlap with what was applied before,
and applies what is new. `mintNewBlock` makes a block of the pool and posts it;
`serveLocalProposals` takes the posted blocks and proposes them to raft.

The indices are `uint64`, with wrap-around.
-/

namespace GoPlasma.Deep

/-! ## Committed entries -/

/-- `raftpb.Entry` -/
structure Entry (α : Type) where
  index : UInt64
  data : α

/-- What `Ready` hands over: the index of a snapshot, which is empty at 0, and committed entries. -/
structure Ready (α : Type) where
  snapshot : UInt64
  committedEntries : List (Entry α)

/-- `entriesToApply`; an error is `fatalf`. -/
def entriesToApply {α : Type} (appliedIndex : UInt64) (allEntries : List (Entry α)) :
    Except String (List (Entry α)) :=
  match allEntries with
  | [] => .ok []
  | e :: _ =>
    let first := e.index
    let lastApplied := appliedIndex
    if lastApplied + 1 < first then
      .error ("first index of committed entry[" ++ toString first.toNat
        ++ "] should <= appliedIndex[" ++ toString lastApplied.toNat ++ "] + 1")
    else
      let firstToApply := lastApplied - first + 1
      if firstToApply.toNat < allEntries.length then .ok (allEntries.drop firstToApply.toNat)
      else .ok []

/-- The loop: the applied index, with the entries that have been applied and the values that the
applied index has taken. -/
structure Progress (α : Type) where
  appliedIndex : UInt64
  applied : List (Entry α)
  advanced : List UInt64

variable {α : Type}

/-- `advanceAppliedIndex` -/
def Progress.advanceAppliedIndex (index : UInt64) (s : Progress α) : Progress α :=
  { s with appliedIndex := index, advanced := s.advanced ++ [index] }

/-- The body of the loop over the entries. -/
def Progress.apply (s : Progress α) (e : Entry α) : Progress α :=
  Progress.advanceAppliedIndex e.index { s with applied := s.applied ++ [e] }

/-- One round of `eventLoop`. -/
def Progress.round (s : Progress α) (rd : Ready α) : Except String (Progress α) := do
  let s := if rd.snapshot ≠ 0 then s.advanceAppliedIndex rd.snapshot else s
  let entries ← entriesToApply s.appliedIndex rd.committedEntries
  .ok (entries.foldl Progress.apply s)

/-- `eventLoop` -/
def Progress.eventLoop (s : Progress α) (rds : List (Ready α)) : Except String (Progress α) :=
  rds.foldlM Progress.round s

/-! ## The minter -/

/-- How far a call of `mintNewBlock` is. -/
inductive Phase where
  | idle
  /-- It has found `mineflag` at 0. -/
  | loaded
  /-- It has set `mineflag` and waits for the mutex. -/
  | stored
  /-- It has the mutex. -/
  | running
deriving DecidableEq

/-- The minter of a node: `mineflag`, the mutex `mu`, the calls of `mintNewBlock`, how many blocks
have been posted that `serveLocalProposals` has not received, and whether it has received one and
not yet called `ResetMiningFlag`, which comes first. -/
structure Minter where
  mineflag : UInt32
  mu : Bool
  calls : ℕ → Phase
  posted : ℕ
  taking : Bool

/-- What can happen; the number names a call. -/
inductive MinterEvent where
  /-- A call starts and looks at `mineflag`. -/
  | load (i : ℕ)
  /-- It sets `mineflag`. -/
  | store (i : ℕ)
  | lock (i : ℕ)
  /-- There is nothing to commit. -/
  | empty (i : ℕ)
  /-- `Flush` of the storage fails. -/
  | flushFails (i : ℕ)
  /-- The block is posted. -/
  | post (i : ℕ)
  /-- `serveLocalProposals` receives a block. -/
  | receive
  /-- It calls `ResetMiningFlag`. -/
  | reset
  /-- `start` of a node that has become the minter. -/
  | start
deriving DecidableEq

/-- A minter that has just been started. -/
def newMinter : Minter := ⟨0, false, fun _ => .idle, 0, false⟩

/-- A call has come to another phase. -/
def Minter.enter (i : ℕ) (p : Phase) (m : Minter) : Minter :=
  { m with calls := Function.update m.calls i p }

/-- One event, if it can happen. A call that finds `mineflag` at 1 returns at once, and only one
that has nothing to commit sets it to 0. -/
def Minter.step (m : Minter) : MinterEvent → Option Minter
  | .load i =>
    if m.calls i ≠ .idle then none else if m.mineflag = 1 then some m else some (m.enter i .loaded)
  | .store i =>
    if m.calls i = .loaded then some { m.enter i .stored with mineflag := 1 } else none
  | .lock i =>
    if m.calls i = .stored ∧ m.mu = false then some { m.enter i .running with mu := true } else none
  | .empty i =>
    if m.calls i = .running then some { m.enter i .idle with mineflag := 0, mu := false } else none
  | .flushFails i =>
    if m.calls i = .running then some { m.enter i .idle with mu := false } else none
  | .post i =>
    if m.calls i = .running then some { m.enter i .idle with posted := m.posted + 1, mu := false }
    else none
  | .receive =>
    if 0 < m.posted ∧ m.taking = false then some { m with posted := m.posted - 1, taking := true }
    else none
  | .reset => if m.taking = true then some { m with mineflag := 0, taking := false } else none
  | .start => some { m with mineflag := 0 }

/-- Events one after another. -/
def Minter.run (m : Minter) (es : List MinterEvent) : Option Minter := es.foldlM Minter.step m

end GoPlasma.Deep
