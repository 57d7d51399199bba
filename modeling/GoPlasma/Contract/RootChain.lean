import GoPlasma.Contract.PriorityQueue
import GoPlasma.Contract.SparseMerkle
import GoPlasma.Contract.Transaction

/-!
# `RootChain.sol`

The contract that holds the deposits: blocks of the child chain are published by their roots, and
a token is exited by showing the transaction that gives it to the caller and the one before it.
An exit waits in a queue until it can be finalized, and can be cancelled meanwhile.

A call returns the new state and what an observer can see of it: the deposits, the payments and the
entries that leave the queue. A call that fails leaves the state as it is. `mapping`s answer with
zero where nothing was written.
-/

namespace GoPlasma.Contract

open Plasma (Address zeroAddress)

/-! ## State -/

/-- `Exit` -/
structure Exit where
  prevBlk : UInt64
  exitBlk : UInt64
  exitor : Address
  balance : UInt64
  exitableTS : ℕ
  bond : ℕ
deriving DecidableEq

/-- The record where there is no exit. -/
def noExit : Exit := ⟨0, 0, zeroAddress, 0, 0, 0⟩

/-- `RootChain`, with the ether that the contract has. -/
structure RootChain where
  authority : Address
  currentDepositIndex : UInt64
  currentBlkNum : UInt64
  childChain : UInt64 → Hash
  depositIndex : UInt64 → UInt64
  depositBalance : UInt64 → UInt64
  exits : UInt64 → Exit
  exitsQueue : PriorityQueue
  smt : SparseMerkle
  ether : ℕ

/-- The constructor, called by `sender`. -/
def newRootChain (E : Evm) (sender : Address) : Sol RootChain := do
  let smt ← newSparseMerkle E
  .ok ⟨sender, 0, 0, fun _ => zeroHash, fun _ => 0, fun _ => 0, fun _ => noExit, .new, smt, 0⟩

/-- What surrounds a call: who makes it, the time of its block, the accounts that accept ether
during the call, and the memory behind the byte arrays when the `i`-th of them is read. -/
structure Msg where
  sender : Address
  timestamp : UInt64
  accepts : Address → Bool
  behind : ℕ → Memory

/-- An exit that is paid out. -/
structure Payment where
  exit : Exit
  depositIndex : UInt64
  tokenID : UInt64
  denomination : UInt64
  operatorBalance : UInt64
  timestamp : UInt64
deriving DecidableEq

/-- What a call shows. -/
inductive Event where
  | deposit (depositor : Address) (depositIndex denomination tokenID : UInt64)
  | payment (p : Payment)
  /-- An entry has left the queue. -/
  | exitCompleted (priority : ℕ)
deriving DecidableEq

/-- The payment that an event shows. -/
def Event.paid : Event → Option Payment
  | .payment p => some p
  | .deposit _ _ _ _ | .exitCompleted _ => none

/-- All payments. -/
def payments (log : List Event) : List Payment := log.filterMap Event.paid

/-- The entry of the queue that an event shows. -/
def Event.completed : Event → Option ℕ
  | .exitCompleted priority => some priority
  | .deposit _ _ _ _ | .payment _ => none

/-- All entries that have left the queue, in order. -/
def completed (log : List Event) : List ℕ := log.filterMap Event.completed

/-- The calls. -/
inductive Call where
  | submitBlock (blkRoot : Hash) (blknum : UInt64)
  | deposit (value : ℕ)
  | depositExit (depositIndex : UInt64)
  | startExit (prevTxBytes prevProof : Bytes) (prevBlk : UInt64) (txBytes proof : Bytes)
    (blk : UInt64)
  | challenge (txBytes proof : Bytes) (blk : UInt64)
  | challengeBefore (txBytes proof : Bytes) (blk : UInt64) (faultyTxBytes faultyProof : Bytes)
      (faultyBlk : UInt64)
  | finalizeExits

namespace RootChain

section
variable (E : Evm) (msg : Msg)

/-! ## Blocks and deposits -/

/-- `submitBlock` -/
def submitBlock (blkRoot : Hash) (blknum : UInt64) (s : RootChain) : Sol RootChain := do
  require (msg.sender = s.authority)
  .ok { s with childChain := Function.update s.childChain blknum blkRoot, currentBlkNum := blknum }

/-- `deposit`, also the fallback function. -/
def deposit (value : ℕ) (s : RootChain) : Sol (RootChain × Event) := do
  require (value < 2 ^ 64 - 2)
  let depositAmount := UInt64.ofNat value
  let tokenID := tokenHash E msg.sender s.currentDepositIndex depositAmount
  require (0 < depositAmount ∧ s.depositBalance tokenID = 0)
  .ok ({ s with
      depositBalance := Function.update s.depositBalance tokenID depositAmount
      depositIndex := Function.update s.depositIndex s.currentDepositIndex tokenID
      currentDepositIndex := s.currentDepositIndex + 1
      ether := s.ether + value },
    .deposit msg.sender s.currentDepositIndex depositAmount tokenID)

/-! ## Exits -/

/-- The place of an exit in the queue: when it can be finalized, then its deposit index. -/
def priority (exitableTS : ℕ) (depID : UInt64) : ℕ := exitableTS <<< 128 % 2 ^ 256 ||| depID.toNat

/-- `addExitToQueue` -/
def addExitToQueue (tokenID depID : UInt64) (etx : Exit) (s : RootChain) : Sol RootChain := do
  requireMsg ((s.exits tokenID).exitableTS = 0) "Existing etx found"
  let q ← s.exitsQueue.insert (priority etx.exitableTS depID)
  .ok { s with exitsQueue := q, exits := Function.update s.exits tokenID etx }

/-- `depositExit`. The first check reads `tokenID` before it is assigned. The function is not
payable, so `msg.value` is zero. -/
def depositExit (depositIndex : UInt64) (s : RootChain) : Sol RootChain := do
  require ((s.exits 0).exitableTS = 0)
  let tokenID := s.depositIndex depositIndex
  let denomination := s.depositBalance tokenID
  require (tokenHash E msg.sender depositIndex denomination = tokenID)
  require (0 < denomination)
  addExitToQueue tokenID depositIndex
    ⟨0, 1, msg.sender, denomination, msg.timestamp.toNat + 60, 0⟩ s

/-- `startExit` -/
def startExit (prevTxBytes prevProof : Bytes) (prevBlk : UInt64) (txBytes proof : Bytes)
    (blk : UInt64) (s : RootChain) : Sol RootChain := do
  let exitTx ← parseTx (msg.behind 0) txBytes
  let tokenID := exitTx.tokenID
  require (0 < tokenID ∧ (s.exits tokenID).exitableTS = 0)
  let prevTx ← parseTx (msg.behind 1) prevTxBytes
  requireMsg (exitTx.recipient = msg.sender) "unauth exit"
  requireMsg (exitTx.prevOwner = prevTx.recipient) "invalid signer"
  requireMsg (exitTx.tokenID = prevTx.tokenID) "tokenID mismatch"
  let ok ← verifyTx (msg.behind 2) txBytes E
  requireMsg ok "exitTx sig failure"
  let ok ← verifyTx (msg.behind 3) prevTxBytes E
  requireMsg ok "prevTx sig failure"
  requireMsg (prevBlk < blk) "Invlid Exit order"
  requireMsg (prevBlk = exitTx.prevBlock) "potential challengeBetween"
  let ok ← checkMembership E s.smt (E.keccak prevTxBytes) (s.childChain prevBlk) tokenID prevProof
  requireMsg ok "prevTx non member"
  let ok ← checkMembership E s.smt (E.keccak txBytes) (s.childChain blk) tokenID proof
  requireMsg ok "exitTx non member"
  addExitToQueue tokenID exitTx.depositIndex
    ⟨prevBlk, blk, msg.sender, exitTx.balance, msg.timestamp.toNat + 60, 0⟩ s

/-! ## Challenges -/

/-- The conditions of `challenge` on the order of the blocks. -/
def challengeCond (challengeTx : PlasmaTx) (etx : Exit) (blk : UInt64) : Sol Unit :=
  if etx.exitBlk < blk then
    if etx.prevBlk = 0 then do
      requireMsg (challengeTx.prevBlock ≠ 0) "Deposit cannot be challenged by itself"
      requireMsg (challengeTx.prevOwner = etx.exitor) "Invalid challengeAfter cond"
    else requireMsg (challengeTx.prevOwner = etx.exitor ∧ challengeTx.prevBlock = etx.exitBlk)
      "Invalid challengeAfter cond"
  else if etx.prevBlk < blk ∧ blk < etx.exitBlk then
    requireMsg (challengeTx.recipient ≠ etx.exitor) "Invlid challengeBetween cond"
  else .ok ()

/-- `challenge` -/
def challenge (txBytes proof : Bytes) (blk : UInt64) (s : RootChain) : Sol RootChain := do
  let challengeTx ← parseTx (msg.behind 0) txBytes
  let tokenID := challengeTx.tokenID
  let etx := s.exits tokenID
  requireMsg (0 < tokenID ∧ 0 < etx.exitableTS) "exit not exist!"
  challengeCond challengeTx etx blk
  let ok ← verifyTx (msg.behind 1) txBytes E
  requireMsg ok "sig failure"
  let ok ← checkMembership E s.smt (E.keccak txBytes) (s.childChain blk) tokenID proof
  requireMsg ok "non member"
  .ok { s with exits := Function.update s.exits tokenID noExit }

/-- `challengeBefore` -/
def challengeBefore (txBytes proof : Bytes) (blk : UInt64) (faultyTxBytes faultyProof : Bytes)
    (faultyBlk : UInt64) (s : RootChain) : Sol RootChain := do
  let lastValidTx ← parseTx (msg.behind 0) txBytes
  let tokenID := lastValidTx.tokenID
  let etx := s.exits tokenID
  requireMsg (0 < tokenID ∧ 0 < etx.exitableTS) "exitTX not exist!"
  let faultyTx ← parseTx (msg.behind 1) faultyTxBytes
  requireMsg (lastValidTx.tokenID = faultyTx.tokenID) "tokenID mismatch"
  requireMsg (lastValidTx.recipient ≠ faultyTx.prevOwner) "Invlid challengeBefore cond"
  let ok ← verifyTx (msg.behind 2) txBytes E
  requireMsg ok "lastValidTx sig failure"
  let ok ← verifyTx (msg.behind 3) faultyTxBytes E
  requireMsg ok "faultyTx sig failure"
  requireMsg (blk = faultyTx.prevBlock) "jump sequence"
  requireMsg (blk < faultyBlk ∧ faultyBlk ≤ etx.prevBlk) "Invlid transition sequence"
  let ok ← checkMembership E s.smt (E.keccak txBytes) (s.childChain blk) lastValidTx.tokenID proof
  requireMsg ok "lastTx non member"
  let ok ← checkMembership E s.smt (E.keccak faultyTxBytes) (s.childChain faultyBlk)
    faultyTx.tokenID faultyProof
  requireMsg ok "faultyTx non member"
  .ok { s with exits := Function.update s.exits tokenID noExit }

/-! ## Finalization -/

/-- `getNextExit`: deposit index, token and time. -/
def getNextExit (s : RootChain) : Sol (UInt64 × UInt64 × ℕ) := do
  let priority ← s.exitsQueue.getMin
  let depID := UInt64.ofNat priority
  .ok (depID, s.depositIndex depID, priority >>> 128)

/-- `recipient.transfer(amount)` -/
def transfer (recipient : Address) (amount : UInt64) (s : RootChain) : Sol RootChain :=
  if msg.accepts recipient ∧ amount.toNat ≤ s.ether then
    .ok { s with ether := s.ether - amount.toNat }
  else .error .transfer

/-- The part of the loop of `finalizeExits` that pays an exit, unless it was cancelled. -/
def payExit (depID tokenID : UInt64) (s : RootChain) : Sol (RootChain × List Event) :=
  let currentExit := s.exits tokenID
  if currentExit.exitor ≠ zeroAddress then do
    let denomination := s.depositBalance tokenID
    let exitorBalance := currentExit.balance
    let operatorBalance ← uint64Sub denomination exitorBalance
    let s := { s with
      depositBalance := Function.update s.depositBalance tokenID 0
      depositIndex := Function.update s.depositIndex depID 0 }
    let s ← transfer msg currentExit.exitor exitorBalance s
    let s ← transfer msg s.authority operatorBalance s
    .ok (s, [.payment ⟨currentExit, depID, tokenID, denomination, operatorBalance, msg.timestamp⟩])
  else .ok (s, [])

/-- The loop of `finalizeExits`, with the number of rounds that are left. -/
def finalizeLoop : ℕ → UInt64 × UInt64 × ℕ → RootChain → Sol (RootChain × List Event)
  | 0, _, s => .ok (s, [])
  | n + 1, (depID, tokenID, exitableTS), s =>
    if exitableTS < msg.timestamp.toNat then do
      let (s, paid) ← payExit msg depID tokenID s
      let priority ← s.exitsQueue.getMin
      let (_, q) ← s.exitsQueue.delMin
      let s := { s with exitsQueue := q, exits := Function.update s.exits tokenID noExit }
      if 0 < q.currentSize then do
        let next ← getNextExit s
        let (s, rest) ← finalizeLoop n next s
        .ok (s, paid ++ [.exitCompleted priority] ++ rest)
      else .ok (s, paid ++ [.exitCompleted priority])
    else .ok (s, [])

/-- `finalizeExits`: 21 rounds at most. -/
def finalizeExits (s : RootChain) : Sol (RootChain × List Event) := do
  let next ← getNextExit s
  finalizeLoop msg 21 next s

/-! ## Runs -/

/-- A call, and what it shows. -/
def exec (s : RootChain) : Call → Sol (RootChain × List Event)
  | .submitBlock blkRoot blknum => do
      let s ← submitBlock msg blkRoot blknum s
      .ok (s, [])
  | .deposit value => do
      let (s, e) ← deposit E msg value s
      .ok (s, [e])
  | .depositExit depositIndex => do
      let s ← depositExit E msg depositIndex s
      .ok (s, [])
  | .startExit prevTxBytes prevProof prevBlk txBytes proof blk => do
      let s ← startExit E msg prevTxBytes prevProof prevBlk txBytes proof blk s
      .ok (s, [])
  | .challenge txBytes proof blk => do
      let s ← challenge E msg txBytes proof blk s
      .ok (s, [])
  | .challengeBefore txBytes proof blk faultyTxBytes faultyProof faultyBlk => do
      let s ← challengeBefore E msg txBytes proof blk faultyTxBytes faultyProof faultyBlk s
      .ok (s, [])
  | .finalizeExits => finalizeExits msg s

end

end RootChain

/-- The states that are reached from deployment by calls that all meet a condition, with the time
of the last call and all that was shown. Time does not run backwards. -/
inductive RunWith (E : Evm) (P : RootChain → Msg → Call → Prop) :
    RootChain → UInt64 → List Event → Prop where
  | new {s : RootChain} (sender : Address) (now : UInt64) (hnew : newRootChain E sender = .ok s) :
      RunWith E P s now []
  | step {s s' : RootChain} {now : UInt64} {log shown : List Event} (msg : Msg) (call : Call)
      (h : RunWith E P s now log) (htime : now ≤ msg.timestamp) (hp : P s msg call)
      (hcall : s.exec E msg call = .ok (s', shown)) : RunWith E P s' msg.timestamp (log ++ shown)
  | fail {s : RootChain} {now : UInt64} {log : List Event} {e : Revert} (msg : Msg) (call : Call)
      (h : RunWith E P s now log) (htime : now ≤ msg.timestamp)
      (hcall : s.exec E msg call = .error e) : RunWith E P s msg.timestamp log

/-- The states that are reached by any calls. -/
abbrev Run (E : Evm) : RootChain → UInt64 → List Event → Prop := RunWith E fun _ _ _ => True

section
variable (E : Evm) (P : RootChain → Msg → Call → Prop) [∀ s msg call, Decidable (P s msg call)]

/-- Makes the calls, one after the other. -/
def runCalls : List (Msg × Call) → RootChain × UInt64 × List Event →
    Sol (RootChain × UInt64 × List Event)
  | [], r => .ok r
  | (msg, call) :: calls, (s, now, log) => do
    require (now ≤ msg.timestamp ∧ P s msg call)
    let (s', shown) ← s.exec E msg call
    runCalls calls (s', msg.timestamp, log ++ shown)

/-- Deploys the contract and makes the calls. -/
def deployAndRun (sender : Address) (calls : List (Msg × Call)) :
    Sol (RootChain × UInt64 × List Event) := do
  let s ← newRootChain E sender
  runCalls E P calls (s, 0, [])

end

end GoPlasma.Contract
