import GoPlasma.Contract.RootChain
import GoPlasma.Plasma.Backend
import GoPlasma.Plasma.DepositReplay

/-!
# The node and the contract

The node of the child chain and the contract on the root chain as one system
(`plasmachain/backend.go`, `contract_backend.go`, `api.go`). The root of a block that the node has
inserted is sent to the contract by `publishBlock`. It is on the way until the root chain takes it
up, and when it cannot be sent nobody tries again. Deposits come to the node as events of the
contract (`EventHandler`). Meanwhile anybody submits transactions to the node, and anybody calls the
contract.

The operator sends with one key, so the root chain takes up the submissions in their order. The node
is configured to use layer 1.
-/

namespace GoPlasma.Bridge

open Contract (Call Event Evm Msg RootChain newRootChain)
open Plasma (Backend BackendOp Crypto PublishedBlock SealedBlock newBackend)

/-! ## State -/

/-- A call of `submitBlock` that the node has sent. -/
structure Submission where
  transactionRoot : Hash
  blocknumber : UInt64

/-- The node, the contract, and what is between them. -/
structure System where
  backend : Backend
  /-- The submissions that the root chain has not taken up, the oldest first. -/
  sent : List Submission
  contract : RootChain
  /-- The time of the root chain. -/
  now : UInt64
  /-- The deposits and payments that the contract has shown. -/
  log : List Event
  /-- The blocks that it has shown. -/
  published : List PublishedBlock

/-- What the client of the root chain does during `publishBlock`: whether it reads the last root,
and whether it sends a call. -/
structure Client where
  reads : Bool
  sends : Bool

/-! ## Publishing -/

/-- `publishBlock`. A number that does not follow the last one is only reported. -/
def publishBlock (client : Client) (transactionRoot : Hash) (blocknumber : UInt64)
    (submitBlocks : Bool) (s : System) : System :=
  if client.reads = false then s
  else if submitBlocks = true ∧ client.sends = true then
    { s with sent := s.sent ++ [⟨transactionRoot, blocknumber⟩] }
  else s

/-- `InsertChainForPOA` for the block that the node has made, from where it is the current one. The
error of `publishBlock` is dropped. -/
def insertChainForPOA (client : Client) (s : System) : System :=
  publishBlock client s.backend.head.header.transactionRoot
    (UInt64.ofNat s.backend.head.header.blockNumber) true s

/-! ## Calls -/

section
variable (C : Crypto) (E : Evm)

/-- The event `PublishedBlock` of a call. -/
def publishedBy (contract : RootChain) : Call → List PublishedBlock
  | .submitBlock _ blknum => [⟨blknum, contract.currentDepositIndex⟩]
  | _ => []

/-- The root chain executes a call. One that fails changes nothing. -/
def transact (msg : Msg) (call : Call) (s : System) : System :=
  match s.contract.exec E msg call with
  | .ok (contract, shown) =>
      { s with
        contract := contract
        now := msg.timestamp
        log := s.log ++ shown
        published := s.published ++ publishedBy s.contract call }
  | .error _ => { s with now := msg.timestamp }

/-- A call of the node. If a block was made, it is inserted. -/
def callNode (op : BackendOp) (client : Client) (s : System) : Go System := do
  let backend ← s.backend.step C op
  let s' : System := { s with backend := backend }
  if backend.chain.length = s.backend.chain.length then .ok s'
  else .ok (insertChainForPOA client s')

/-- `EventHandler`, for an event that the contract has shown: only deposits are acted upon. -/
def eventHandler (event : Event) (s : System) : Go System :=
  match event with
  | .deposit depositor depositIndex denomination _ =>
      callNode C (.deposit ⟨depositIndex, denomination, depositor⟩) ⟨false, false⟩ s
  | .payment _ | .exitCompleted _ => .ok s

/-- What can happen. -/
inductive SystemOp where
  /-- A call of the node, and what the client does if a block is published. -/
  | node (op : BackendOp) (client : Client)
  /-- The node is told of the `i`-th event. -/
  | event (i : ℕ)
  /-- The root chain takes up the oldest submission, from the operator. -/
  | mine (msg : Msg)
  /-- Somebody calls the contract. -/
  | call (msg : Msg) (call : Call)

/-- One of these. Events that were not shown, and calls before the time of the root chain, change
nothing. -/
def System.step (s : System) : SystemOp → Go System
  | .node op client => callNode C op client s
  | .event i =>
    match s.log[i]? with
    | some event => eventHandler C event s
    | none => .ok s
  | .mine msg =>
    match s.sent with
    | [] => .ok s
    | x :: rest =>
      if s.now ≤ msg.timestamp then
        .ok (transact E { msg with sender := C.operatorAddr }
          (.submitBlock x.transactionRoot x.blocknumber) { s with sent := rest })
      else .ok s
  | .call msg call => if s.now ≤ msg.timestamp then .ok (transact E msg call s) else .ok s

/-! ## Runs -/

/-- The operator has deployed the contract, and the node is new. -/
structure Started (s : System) : Prop where
  backend : s.backend = newBackend
  sent : s.sent = []
  contract : newRootChain E C.operatorAddr = .ok s.contract
  log : s.log = []
  published : s.published = []

/-- What one state leads to, when every step meets a condition. -/
inductive Steps (P : System → SystemOp → Prop) (s : System) : System → Prop where
  | refl : Steps P s s
  | step {s₁ s₂ : System} (op : SystemOp) (h : Steps P s s₁) (hp : P s₁ op)
      (hs : s₁.step C E op = .ok s₂) : Steps P s s₂

/-- The operator's key is used by the node alone, and the node makes deposits only of what it was
told by the contract. -/
def Honest : SystemOp → Prop
  | .node (.deposit _) _ => False
  | .call msg (.submitBlock _ _) => msg.sender ≠ C.operatorAddr
  | _ => True

/-- Steps, one after the other. -/
def System.exec (s : System) : List SystemOp → Go System
  | [] => .ok s
  | op :: ops => do
      let s ← s.step C E op
      s.exec ops

/-- The steps lead to a state with a property. -/
def System.reaches (ops : List SystemOp) (Q : System → Prop) [DecidablePred Q] (s : System) :
    Bool :=
  match s.exec C E ops with
  | .ok s => decide (Q s)
  | .error _ => false

/-- The operator deploys the contract, and then these steps lead to a state with a property. -/
def System.leadsTo (ops : List SystemOp) (Q : System → Prop) [DecidablePred Q] : Bool :=
  match newRootChain E C.operatorAddr with
  | .ok contract => System.reaches C E ops Q ⟨newBackend, [], contract, 0, [], []⟩
  | .error _ => false

end

end GoPlasma.Bridge
