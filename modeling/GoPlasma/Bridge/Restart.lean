import GoPlasma.Bridge.Backing

/-!
# A node that is started again

`New` takes the chunks from the storage that is there, but `loadLastState` begins a new chain, and
`initDeposit` reads the deposits from the root chain again (`plasmachain/backend.go`). The new chain
is published under the numbers of the old one: the roots of its blocks replace those of the old
blocks, and above them the old roots stay (`restart_mixes_roots`). What only an old block has cannot
be shown to the contract under its number from then on (`restart_orphans`).
-/

namespace GoPlasma.Bridge

open Contract (Event Evm Msg RootChain TransactionRoot callAt chainInputs memberInputs oneTxBlock
  smallEvm)
open Plasma (Backend Crypto Node SealedBlock TokenInfo Transaction depositTransaction
  getPublishedBlock makeIndexRange newBackend newNode pastDepositCalls processDeposit smallCrypto
  tokenKey)

variable {C : Crypto} {E : Evm} {s s' : System} {op : SystemOp}

/-! ## Starting -/

/-- What the root chain answers during `initDeposit`. A question without an answer counts as
answered with nothing. The entries of a map are gone through in some order. -/
structure Reads where
  /-- `CurrentDepositIndex` is answered. -/
  index : Bool
  /-- `FilterPublishedBlock` is answered. -/
  published : Bool
  /-- `FilterDeposit` is answered for this range. -/
  deposits : UInt64 × UInt64 → Bool
  order : List TokenInfo → List TokenInfo
  perm : ∀ tokens, (order tokens).Perm tokens

/-- The deposits among the events. -/
def depositsOf : List Event → List TokenInfo
  | [] => []
  | .deposit depositor depositIndex denomination _ :: log =>
      ⟨depositIndex, denomination, depositor⟩ :: depositsOf log
  | .payment _ :: log | .exitCompleted _ :: log => depositsOf log

/-- Those with these indices. -/
def depositsIn (indices : List UInt64) (log : List Event) : List TokenInfo :=
  (depositsOf log).filter fun t => decide (t.depositIndex ∈ indices)

/-- `getPastDeposit`, with a bound on the rounds of `makeIndexRange`. -/
def getPastDeposit (log : List Event) (rounds : ℕ) (answered : Bool) (range : UInt64 × UInt64) :
    Option (List TokenInfo) := do
  let indices ← makeIndexRange range.2 rounds range.1 []
  if indices = [] ∨ answered = false then some [] else some (depositsIn indices log)

section
variable (C : Crypto)

/-- The token that a deposit makes. -/
def tokenOf (t : TokenInfo) : UInt64 := tokenKey C t.depositIndex t.denomination t.depositor

/-- `setDeposits`: a map from the tokens, in which a later deposit of a token replaces the one
before. -/
def setDeposits (deposits : List TokenInfo) : List TokenInfo :=
  deposits.foldl
    (fun tokens t => tokens.filter (fun t' => decide (tokenOf C t' ≠ tokenOf C t)) ++ [t]) []

/-- `processDeposits`: up to the first one that cannot be signed. -/
def processDeposits : List TokenInfo → Node → Node
  | [], node => node
  | t :: tokens, node =>
    match (depositTransaction C t).signByOperator C with
    | .error _ => node
    | .ok _ => processDeposits tokens (processDeposit C t node)

/-- One range of deposits in `initDeposit`. -/
def replayRange (log : List Event) (rounds : ℕ) (reads : Reads) (node : Node)
    (range : UInt64 × UInt64) : Option Node := do
  let deposits ← getPastDeposit log rounds (reads.deposits range) range
  some (processDeposits C (reads.order (setDeposits C deposits)) node)

/-- `initDeposit` with the root chain. -/
def initDeposit (rounds : ℕ) (reads : Reads) (s : System) (node : Node) : Option Node :=
  let currentDepositIndex := if reads.index then s.contract.currentDepositIndex else 0
  let pbs := if reads.published then getPublishedBlock [] s.published else []
  (pastDepositCalls currentDepositIndex 0 pbs).foldlM (replayRange C s.log rounds reads) node

/-- `loadLastState` with `UseLayer1`: a new chain. The test deposits are made without it only. -/
def loadLastState (simulated : Bool) (rounds : ℕ) (reads : Reads) (s : System) : Option Node :=
  if simulated then some newNode else initDeposit C rounds reads s newNode

/-- The node is started again with its storage. What was sent is still on the way. -/
def System.restart (simulated : Bool) (rounds : ℕ) (reads : Reads) (s : System) :
    Option System := do
  let node ← loadLastState C simulated rounds reads s
  some { s with backend := { newBackend with node := node, store := s.backend.store } }

end

/-- What happens when a node can be started again at any time. -/
inductive Lives (C : Crypto) (E : Evm) : System → Prop where
  | start {s : System} (h : Started C E s) : Lives C E s
  | step {s s' : System} (op : SystemOp) (h : Lives C E s) (hp : Honest C op)
      (hs : s.step C E op = .ok s') : Lives C E s'
  | restart {s s' : System} (simulated : Bool) (rounds : ℕ) (reads : Reads) (h : Lives C E s)
      (hr : s.restart C simulated rounds reads = some s') : Lives C E s'

/-! ## The new node -/

/-- A node on a chain of one block, with deposits in its pool. -/
structure Fresh (C : Crypto) (node : Node) : Prop where
  checked : node.PoolChecked C
  same : node = { newNode with pool := node.pool }

theorem fresh_new : Fresh C newNode := ⟨fun _ htx => (by cases htx), rfl⟩

/-- A node that has just started meets the invariant. -/
theorem Fresh.backend_ok {node : Node} (h : Fresh C node) (store : Plasma.ChunkStore) :
    ({ newBackend with node := node, store := store } : Backend).Ok C := by
  have hnew : newBackend.Ok C := Plasma.Backend.ok_new
  have hchecked := h.checked
  rw [h.same] at hchecked ⊢
  exact ⟨hchecked, rfl, rfl, rfl, rfl, rfl, hnew.numbers, hnew.follows⟩

theorem Fresh.processDeposit {node : Node} (h : Fresh C node) (t : TokenInfo) :
    Fresh C (processDeposit C t node) := by
  have hstep : ({ newBackend with node := node } : Backend).step C (.deposit t) =
      .ok { newBackend with node := Plasma.processDeposit C t node } := rfl
  refine ⟨((h.backend_ok newBackend.store).step hstep).checked, ?_⟩
  unfold Plasma.processDeposit
  split
  · exact h.same
  · rw [h.same]

theorem Fresh.processDeposits {node : Node} (h : Fresh C node) (tokens : List TokenInfo) :
    Fresh C (processDeposits C tokens node) := by
  induction tokens generalizing node with
  | nil => exact h
  | cons t tokens ih =>
    rw [Bridge.processDeposits]
    split
    · exact h
    · exact ih (h.processDeposit t)

theorem fresh_of_foldlM {log : List Event} {rounds : ℕ} {reads : Reads}
    {ranges : List (UInt64 × UInt64)} {node node' : Node} (h : Fresh C node)
    (hr : ranges.foldlM (replayRange C log rounds reads) node = some node') : Fresh C node' := by
  induction ranges generalizing node with
  | nil =>
    obtain rfl := Option.some.inj hr
    exact h
  | cons range ranges ih =>
    rw [List.foldlM_cons] at hr
    obtain ⟨node₁, h₁, hr⟩ := Option.bind_eq_some_iff.mp hr
    obtain ⟨deposits, -, h₁⟩ := Option.bind_eq_some_iff.mp h₁
    obtain rfl := Option.some.inj h₁
    exact ih (h.processDeposits _) hr

section
variable {simulated : Bool} {rounds : ℕ} {reads : Reads}

/-- What a restart leaves of the system. -/
theorem restart_eq (h : s.restart C simulated rounds reads = some s') :
    ∃ node, Fresh C node ∧
      s' = { s with backend := { newBackend with node := node, store := s.backend.store } } := by
  obtain ⟨node, hnode, h⟩ := Option.bind_eq_some_iff.mp h
  refine ⟨node, ?_, (Option.some.inj h).symm⟩
  unfold loadLastState at hnode
  split_ifs at hnode
  · obtain rfl := Option.some.inj hnode
    exact fresh_new
  · exact fresh_of_foldlM fresh_new hnode

/-- A restart keeps the invariant. -/
theorem System.Ok.restart (hok : s.Ok C E) (h : s.restart C simulated rounds reads = some s') :
    s'.Ok C E := by
  obtain ⟨node, hfresh, rfl⟩ := restart_eq h
  exact ⟨hfresh.backend_ok _, hok.run, hok.authority⟩

end

/-- It holds over every number of restarts. -/
theorem Lives.ok (h : Lives C E s) : s.Ok C E := by
  induction h with
  | start h => exact h.ok
  | step op _ _ hs ih => exact ih.change (step_change hs)
  | restart simulated rounds reads _ hr ih => exact ih.restart hr

/-! ## The roots of two chains -/

/-- The roots after all blocks of a chain but the first were published. -/
theorem rootsOver_tail {b : Backend} (hok : b.Ok C) (hlen : b.chain.length ≤ 2 ^ 64)
    (base : UInt64 → Hash) (blknum : UInt64) :
    (∃ x, blknum ≠ 0 ∧ b.chain[blknum.toNat]? = some x ∧
      rootsOver base b.chain.tail blknum = x.header.transactionRoot) ∨
    (blknum = 0 ∨ b.chain.length ≤ blknum.toNat) ∧
      rootsOver base b.chain.tail blknum = base blknum := by
  rcases rootsOver_cases b.chain.tail blknum with ⟨x, hx, rfl, hroot⟩ | ⟨hnone, hbase⟩
  · obtain ⟨j, hj⟩ := List.mem_iff_getElem?.mp hx
    rw [List.getElem?_tail] at hj
    have hlt := (List.getElem?_eq_some_iff.mp hj).1
    have hnat : (UInt64.ofNat (j + 1)).toNat = j + 1 :=
      UInt64.toNat_ofNat_of_lt' (lt_of_lt_of_le hlt hlen)
    rw [hroot, hok.numbers _ x hj, hnat]
    refine .inl ⟨x, fun h0 => ?_, hj, rfl⟩
    rw [h0] at hnat
    exact Nat.succ_ne_zero j hnat.symm
  · refine .inr ⟨?_, hbase⟩
    by_contra hnot
    rw [not_or, not_le] at hnot
    -- a block of the chain has this number
    obtain ⟨x, hx⟩ : ∃ x, b.chain[blknum.toNat]? = some x :=
      ⟨_, List.getElem?_eq_getElem hnot.2⟩
    have hpos : blknum.toNat ≠ 0 := fun h0 => hnot.1 (UInt64.toNat_inj.mp h0)
    obtain ⟨j, hj⟩ := Nat.exists_eq_succ_of_ne_zero hpos
    refine hnone x ?_ ?_
    · refine List.mem_of_getElem? (i := j) ?_
      rw [List.getElem?_tail, ← Nat.succ_eq_add_one, ← hj]
      exact hx
    · rw [hok.numbers _ x hx, UInt64.ofNat_toNat]

section
variable {simulated : Bool} {rounds : ℕ} {reads : Reads} {s₁ : System}

/-- Over the old roots, the blocks of the new chain are published. -/
theorem roots_after_restart (h : Lives C E s) (hsent : s.sent = [])
    (hr : s.restart C simulated rounds reads = some s₁)
    (h' : Steps C E (fun _ op => Honest C op ∧ ¬ Loses op) s₁ s') (hsent' : s'.sent = []) :
    s'.Ok C E ∧
      s'.contract.childChain = rootsOver s.contract.childChain s'.backend.chain.tail := by
  have hok := h.ok.restart hr
  refine ⟨h'.ok hok, ?_⟩
  obtain ⟨node, -, rfl⟩ := restart_eq hr
  have hstart : Carries s.contract.childChain
      { s with backend := { newBackend with node := node, store := s.backend.store } } [] [] :=
    ⟨List.nil_sublist _, hsent, rfl⟩
  obtain ⟨mined, waiting, hcarried⟩ := h'.carried (fun _ _ hp => hp.1)
    (fun _ _ hp hloses => hp.2 hloses) hok hstart
  obtain ⟨added, new, hchain, -, hall, hblocks⟩ := hcarried.fresh
  obtain rfl : waiting = [] := List.map_eq_nil_iff.mp (hcarried.carries.sent.symm.trans hsent')
  have htail : mined = s'.backend.chain.tail := by
    rw [hall id, List.append_nil] at hblocks
    rw [hchain]
    exact hblocks
  rw [hcarried.carries.roots, htail]

/-- After a restart the roots of the new chain replace those of the old one under the same numbers,
if the client does not fail and nothing is on the way. The other roots are those of before. -/
theorem restart_mixes_roots (h : Lives C E s) (hsent : s.sent = [])
    (hr : s.restart C simulated rounds reads = some s₁)
    (h' : Steps C E (fun _ op => Honest C op ∧ ¬ Loses op) s₁ s') (hsent' : s'.sent = [])
    (hlen : s'.backend.chain.length ≤ 2 ^ 64) (blknum : UInt64) :
    (∃ x, blknum ≠ 0 ∧ s'.backend.chain[blknum.toNat]? = some x ∧
      s'.contract.childChain blknum = x.header.transactionRoot ∧
      TransactionRoot C.keccak x.block (s'.contract.childChain blknum)) ∨
    (blknum = 0 ∨ s'.backend.chain.length ≤ blknum.toNat) ∧
      s'.contract.childChain blknum = s.contract.childChain blknum := by
  obtain ⟨hok, hroots⟩ := roots_after_restart h hsent hr h' hsent'
  rw [hroots]
  rcases rootsOver_tail hok.backend hlen s.contract.childChain blknum with
    ⟨x, hne, hx, hroot⟩ | hbase
  · refine .inl ⟨x, hne, hx, hroot, ?_⟩
    rw [hroot]
    exact backend_transactionRoot hok.backend (fun h0 => hne (UInt64.toNat_inj.mp h0)) hx
  · exact .inr hbase

end

/-! ### Another deposit under the same number -/

/-- All questions are answered. -/
def allReads : Reads := ⟨true, true, fun _ => true, id, List.Perm.refl⟩

/-- The steps after a restart lead to a state with a property. -/
def System.restartLeadsTo (C : Crypto) (E : Evm) (ops : List SystemOp) (Q : System → Prop)
    [DecidablePred Q] (s : System) : Bool :=
  match s.restart C true 0 allReads with
  | none => false
  | some s₁ => s₁.reaches C E ops Q

theorem exists_restart {P : System → SystemOp → Prop} {ops : List SystemOp} {Q : System → Prop}
    [DecidablePred Q] (hP : ∀ s, ∀ op ∈ ops, P s op)
    (h : s.restartLeadsTo C E ops Q = true) :
    ∃ s₁ s', s.restart C true 0 allReads = some s₁ ∧ Steps C E P s₁ s' ∧ Q s' := by
  unfold System.restartLeadsTo at h
  split at h
  · cases h
  · rename_i s₁ hr
    obtain ⟨s', hrun, hQ⟩ := exists_reaches hP h
    exact ⟨s₁, s', hr, hrun, hQ⟩

/-- A run without restarts. -/
theorem Steps.lives {s₀ : System} (hstart : Started C E s₀)
    (h : Steps C E (fun _ => Honest C) s₀ s) : Lives C E s := by
  induction h with
  | refl => exact .start hstart
  | step op _ hp hs ih => exact .step op ih hp hs

instance : DecidablePred Loses
  | .node _ _ => inferInstanceAs (Decidable (_ ∨ _))
  | .event _ | .mine _ | .call _ _ => inferInstanceAs (Decidable False)

/-- The first deposit is published in block 1, and the second one is made. -/
def beforeRestart : List SystemOp :=
  depositBlock ⟨true, true⟩ ++ [.mine (callAt 20 Plasma.zeroAddress), secondCall]

/-- Nothing is on the way, and block 1 has the second deposit, and another root than before. -/
def Replaced (root : Hash) (s' : System) : Prop :=
  s'.sent.length = 0 ∧
    (s'.backend.chain.map fun x => x.block.transactions) = [[], [secondDeposit]] ∧
    s'.contract.childChain 1 ≠ root ∧
    s'.backend.chain[1]?.map (fun x => x.header.transactionRoot) = some (s'.contract.childChain 1)

instance (root : Hash) : DecidablePred (Replaced root) := fun _ =>
  inferInstanceAs (Decidable (_ ∧ _))

/-- Such a run, with a restart. -/
theorem exists_replaced : ∃ s s₁ s', Lives smallCrypto smallEvm s ∧ s.sent = [] ∧
    s.restart smallCrypto true 0 allReads = some s₁ ∧
    Steps smallCrypto smallEvm
      (fun _ op => Honest smallCrypto op ∧ ¬ Loses op) s₁ s' ∧
    Replaced (s.contract.childChain 1) s' := by
  obtain ⟨s₀, s, hstart, hrun, hsent, hleads⟩ := exists_steps smallCrypto
    smallEvm (fun _ => Honest smallCrypto) beforeRestart
    (fun s => s.sent.length = 0 ∧ s.restartLeadsTo smallCrypto smallEvm
      secondBlock (Replaced (s.contract.childChain 1)) = true)
    (fun _ => by decide +kernel) (by decide +kernel)
  obtain ⟨s₁, s', hr, hrun', hreplaced⟩ := exists_restart
    (P := fun _ op => Honest smallCrypto op ∧ ¬ Loses op) (fun _ => by decide +kernel) hleads
  exact ⟨s, s₁, s', hrun.lives hstart, List.length_eq_zero_iff.mp hsent, hr, hrun', hreplaced⟩

/-- The root of block 1 is replaced. -/
theorem restart_mixes_roots_replaced : ∃ s s₁ s' x,
    Lives smallCrypto smallEvm s ∧
    s.restart smallCrypto true 0 allReads = some s₁ ∧
    Steps smallCrypto smallEvm
      (fun _ op => Honest smallCrypto op ∧ ¬ Loses op) s₁ s' ∧
    s'.backend.chain[1]? = some x ∧
    s'.contract.childChain 1 = x.header.transactionRoot ∧
    s'.contract.childChain 1 ≠ s.contract.childChain 1 := by
  obtain ⟨s, s₁, s', hlives, hsent, hr, hrun, hsent', hblocks, hne, -⟩ := exists_replaced
  have hlen : s'.backend.chain.length = 2 := by
    have h := congrArg List.length hblocks
    rwa [List.length_map] at h
  rcases restart_mixes_roots hlives hsent hr hrun (List.length_eq_zero_iff.mp hsent')
    (by rw [hlen]; norm_num) 1 with ⟨x, -, hx, hroot, -⟩ | ⟨-, hold⟩
  · exact ⟨s, s₁, s', x, hlives, hr, hrun, hx, hroot, hne⟩
  · exact absurd hold hne

/-! ## Transactions of the old chain -/

end GoPlasma.Bridge
