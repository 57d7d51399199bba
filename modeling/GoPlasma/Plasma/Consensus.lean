import GoPlasma.Plasma.HistoryTheorems

/-!
# The block counter

A chain keeps its current block and, apart from it, the number of the current block. Three entry
points set them (`plasmachain/backend.go`): `InsertChainForPOA` sets both, `InsertChain` (for the
other minter of `deep/minter.go`) the block only, and `ProcessPlasmaBlock` (for the blocks of peers)
the number only. The minters take the number of a new block from the current block, and
`ApplyPlasmaTransaction` writes the number after the counter into the records and receipts.

`counter_coherent`: which calls keep the two together, and that the numbers in the records are right
as long as they are.
-/

namespace GoPlasma.Plasma

variable {C : Crypto}

/-! ## The entry points -/

/-- The fields of `PlasmaChain` that the entry points read and set. -/
structure PlasmaChain where
  pool : Pool
  /-- `none` is the nil pointer. -/
  currentBlock : Option Block
  blockNumber : ℕ

/-- A new chain. -/
def newPlasmaChain : PlasmaChain := ⟨⟨[], []⟩, some genesis, 0⟩

/-- `InsertChainForPOA`; the type assertion on a nil interface panics. -/
def insertChainForPOA (chain : List Block) (s : PlasmaChain) : Go PlasmaChain :=
  match chain.getLast? with
  | none => .error .nilDereference
  | some lastblock => .ok { s with currentBlock := some lastblock, blockNumber := lastblock.number }

/-- `insertChain`, which `InsertChain` calls; `lastCanon` is nil if there are no blocks. -/
def insertChain (chain : List Block) (s : PlasmaChain) : PlasmaChain :=
  { s with currentBlock := chain.getLast? }

section
variable (C : Crypto)

/-- The hashes that a block covers. -/
def covered (b : Block) : List Hash :=
  b.transactions.map (Transaction.hash C) ++ b.anchors.map (AnchorTransaction.hash C)

/-- `ProcessPlasmaBlock` -/
def processPlasmaBlock (b : Block) (s : PlasmaChain) : PlasmaChain :=
  { s with
    blockNumber := b.number
    pool := ⟨s.pool.txpool.filter fun tx => decide (tx.hash C ∉ covered C b),
      s.pool.wtxpool.filter fun tx => decide (tx.hash C ∉ covered C b)⟩ }

/-- The chain as the pool and the minter see it. -/
def PlasmaChain.node (s : PlasmaChain) : Node :=
  ⟨s.pool, s.currentBlock.getD genesis, s.blockNumber, []⟩

/-- A call of the node: it leaves the block and the counter to the minter, who panics on a nil block
if there is something to mint. -/
def callNode (op : Op) (s : PlasmaChain) : Go PlasmaChain := do
  match op, s.currentBlock with
  | .mint _, none =>
      if s.pool.txpool = [] ∧ s.pool.wtxpool = [] then .ok s else .error .nilDereference
  | _, _ => do
      let s' ← step C s.node op
      .ok ⟨s'.pool, s.currentBlock.map fun _ => s'.currentBlock, s'.blockNumber⟩

/-- The calls of a chain: the entry points for blocks, and the calls of a node. -/
inductive ChainOp where
  | insertChainForPOA (chain : List Block)
  | insertChain (chain : List Block)
  | processPlasmaBlock (b : Block)
  | node (op : Op)

/-- One call. -/
def chainStep (s : PlasmaChain) : ChainOp → Go PlasmaChain
  | .insertChainForPOA chain => Plasma.insertChainForPOA chain s
  | .insertChain chain => .ok (Plasma.insertChain chain s)
  | .processPlasmaBlock b => .ok (Plasma.processPlasmaBlock C b s)
  | .node op => callNode C op s

/-- The states of a chain after calls that all meet a condition and do not panic. -/
inductive ChainRun (P : PlasmaChain → ChainOp → Prop) : PlasmaChain → Prop where
  | new : ChainRun P newPlasmaChain
  | step {s s' : PlasmaChain} (op : ChainOp) (h : ChainRun P s) (hp : P s op)
      (hs : chainStep C s op = .ok s') : ChainRun P s'

/-- A list of calls, one after the other. -/
def chainExec (s : PlasmaChain) : List ChainOp → Go PlasmaChain
  | [] => .ok s
  | op :: ops => do
      let s ← chainStep C s op
      chainExec s ops

end

/-! ## Coherence -/

/-- The counter is the number of the current block. -/
def PlasmaChain.Coherent (s : PlasmaChain) : Prop :=
  ∃ b, s.currentBlock = some b ∧ s.blockNumber = b.number

/-- The calls that keep the counter: blocks that are inserted for the other minter end with the
number of the counter, and blocks of peers have it. -/
def KeepsCounter (s : PlasmaChain) : ChainOp → Prop
  | .insertChain chain => ∃ b, chain.getLast? = some b ∧ b.number = s.blockNumber
  | .processPlasmaBlock b => b.number = s.blockNumber
  | .insertChainForPOA _ | .node _ => True

variable {s s' : PlasmaChain}

/-- A call of the node keeps the counter, and checks what it puts into the pool. -/
theorem callNode_keeps {op : Op} (h : callNode C op s = .ok s') (hp : s.node.PoolChecked C) :
    s'.node.PoolChecked C ∧ (s.Coherent → s'.Coherent) := by
  -- with a current block the call is a step of the node
  have hstep : ∀ s₁, step C s.node op = .ok s₁ →
      s' = ⟨s₁.pool, s.currentBlock.map fun _ => s₁.currentBlock, s₁.blockNumber⟩ →
      s'.node.PoolChecked C ∧ (s.Coherent → s'.Coherent) := by
    rintro s₁ h₁ rfl
    obtain ⟨hpool, hcases⟩ := step_cases h₁ hp
    refine ⟨fun tx htx => hpool tx htx, ?_⟩
    rintro ⟨b, hb, hn⟩
    refine ⟨s₁.currentBlock, by rw [hb]; rfl, ?_⟩
    rcases hcases with ⟨hcb, hbn, -⟩ | hm
    · change s₁.blockNumber = s₁.currentBlock.number
      rw [hcb, hbn]
      change s.blockNumber = (s.currentBlock.getD genesis).number
      rw [hb]
      exact hn
    · exact hm.blockNumber
  have hrest : callNode C op s = (do
      let s₁ ← step C s.node op
      .ok ⟨s₁.pool, s.currentBlock.map fun _ => s₁.currentBlock, s₁.blockNumber⟩) →
      s'.node.PoolChecked C ∧ (s.Coherent → s'.Coherent) := by
    intro heq
    rw [heq] at h
    rcases h₁ : step C s.node op with p | s₁
    · rw [h₁] at h
      cases h
    · rw [h₁] at h
      exact hstep s₁ h₁ (Except.ok.inj h).symm
  rcases hb : s.currentBlock with _ | b
  · rcases op with t | tx | ⟨tx, a, r⟩ | c
    · exact hrest (by simp only [callNode])
    · exact hrest (by simp only [callNode])
    · exact hrest (by simp only [callNode])
    · -- there is no block to mint on
      simp only [callNode, hb] at h
      split_ifs at h
      obtain rfl := Except.ok.inj h
      exact ⟨hp, id⟩
  · exact hrest (by simp only [callNode, hb])

/-- One call: what it does to the pool, and whether the counter stays right. -/
theorem chainStep_keeps {op : ChainOp} (h : chainStep C s op = .ok s') (hp : s.node.PoolChecked C)
    (hc : s.Coherent) : s'.node.PoolChecked C ∧ (s'.Coherent ↔ KeepsCounter s op) := by
  obtain ⟨b, hb, hn⟩ := hc
  cases op with
  | insertChainForPOA chain =>
    simp only [chainStep, insertChainForPOA] at h
    split at h
    · cases h
    · rename_i lastblock hlast
      obtain rfl := Except.ok.inj h
      exact ⟨hp, iff_of_true ⟨lastblock, rfl, rfl⟩ trivial⟩
  | insertChain chain =>
    obtain rfl := Except.ok.inj h
    -- the current block is another one, and the counter is what it was
    refine ⟨hp, ⟨?_, ?_⟩⟩
    · rintro ⟨b', hb', hn'⟩
      exact ⟨b', hb', hn'.symm⟩
    · rintro ⟨b', hb', hn'⟩
      exact ⟨b', hb', hn'.symm⟩
  | processPlasmaBlock b' =>
    obtain rfl := Except.ok.inj h
    -- the counter is set, and the current block is what it was
    refine ⟨fun tx htx => hp tx (List.mem_of_mem_filter htx), ⟨?_, ?_⟩⟩
    · rintro ⟨b₁, hb₁, hn₁⟩
      obtain rfl := Option.some.inj (hb.symm.trans hb₁)
      exact hn₁.trans hn.symm
    · intro hn'
      exact ⟨b, hb, hn'.trans hn⟩
  | node op =>
    obtain ⟨hpool, hcoh⟩ := callNode_keeps h hp
    exact ⟨hpool, iff_of_true (hcoh ⟨b, hb, hn⟩) trivial⟩

theorem ChainRun.coherent (h : ChainRun C KeepsCounter s) : s.node.PoolChecked C ∧ s.Coherent := by
  induction h with
  | new => exact ⟨fun tx htx => (by cases htx), genesis, rfl, rfl⟩
  | step op _ hp hs ih =>
    obtain ⟨hpool, hiff⟩ := chainStep_keeps hs ih.1 ih.2
    exact ⟨hpool, hiff.mpr hp⟩

/-- In a coherent state the number that is written into the records of a block is its own. -/
theorem PlasmaChain.Coherent.numbers (hc : s.Coherent) (hp : s.node.PoolChecked C) {c : MintChoice}
    {n : Node} {m : Minting Unit} {T' : Tries} (hm : Mints C c s.node n m T') :
    s.node.blockNumber + 1 = n.currentBlock.number ∧
      ∀ tx ∈ n.currentBlock.transactions, ∃ r,
        n.currentBlock.tries.tokens.lookup tx.tokenID = some r ∧
          r.prevBlock = n.currentBlock.number := by
  obtain ⟨b, hb, hn⟩ := hc
  have hmint := hm.minted hp
  have hnumber : s.node.blockNumber + 1 = n.currentBlock.number := by
    rw [hmint.number]
    change s.blockNumber + 1 = (s.currentBlock.getD genesis).number + 1
    rw [hb, hn]
    rfl
  refine ⟨hnumber, fun tx htx => ?_⟩
  rcases hmint.tokens tx.tokenID with ⟨hnil, -⟩ | ⟨tx', t, -, -, -, ht, -⟩
  · have hmem : tx ∈ forToken tx.tokenID n.currentBlock.transactions :=
      List.mem_filter.mpr ⟨htx, by simp⟩
    rw [hnil] at hmem
    cases hmem
  · exact ⟨_, ht, hnumber⟩

/-- In every run whose calls keep the counter, it is the number of the current block, and from each
of these states exactly the calls that keep the counter lead to another one. When a block is made
there, the records of its transactions name it, and so do the receipts that are stored. -/
theorem counter_coherent (h : ChainRun C KeepsCounter s) :
    s.Coherent ∧
    (∀ op s', chainStep C s op = .ok s' → (s'.Coherent ↔ KeepsCounter s op)) ∧
    ∀ c n m T', Mints C c s.node n m T' →
      (∀ tx ∈ n.currentBlock.transactions, ∃ r,
        n.currentBlock.tries.tokens.lookup tx.tokenID = some r ∧
          r.prevBlock = n.currentBlock.number) ∧
      ∀ (σ : Type) (S : Storage σ) tx, applyPlasmaTransaction C S s.blockNumber tx =
        (do updatePlasma C S s.blockNumber tx; storeTransaction C S tx n.currentBlock.number) := by
  obtain ⟨hp, hc⟩ := h.coherent
  refine ⟨hc, fun op s' hs => (chainStep_keeps hs hp hc).2, ?_⟩
  intro c n m T' hm
  obtain ⟨hnumber, hrecords⟩ := hc.numbers hp hm
  refine ⟨hrecords, fun σ S tx => ?_⟩
  rw [← hnumber]
  rfl

/-! ### Blocks from elsewhere -/

/-- A block without transactions. -/
def emptyBlock (number : ℕ) : Block := ⟨number, [], [], ⟨∅, ∅, ∅, ∅⟩⟩

/-- The counter after a block of a peer that has its number. -/
theorem counter_coherent_peer : ∃ s,
    chainExec byteCrypto newPlasmaChain
      [.insertChainForPOA [emptyBlock 1], .processPlasmaBlock (emptyBlock 1)] = .ok s ∧
    s.Coherent ∧ s.blockNumber = 1 := by
  have hrun : ChainRun byteCrypto KeepsCounter ⟨⟨[], []⟩, some (emptyBlock 1), 1⟩ :=
    .step (.processPlasmaBlock (emptyBlock 1))
      (.step (.insertChainForPOA [emptyBlock 1]) .new trivial rfl) rfl rfl
  exact ⟨_, rfl, (counter_coherent hrun).1, rfl⟩

/-- The deposit of token 1 is minted. -/
def depositOps : List ChainOp :=
  [.node (.deposit ⟨0, 5, oneAddress⟩), .node (.mint ⟨[oneDeposit], [], ⟨[1], [oneAddress], []⟩⟩)]

/-- The current block, with the block that the record of token 1 names. -/
def recordedIn (s : PlasmaChain) : Option (ℕ × Option ℕ) :=
  s.currentBlock.map fun b => (b.number, (b.tries.tokens.lookup 1).map Token.prevBlock)

set_option maxRecDepth 8000 in
/-- After a block from `InsertChain` the deposit is in block 2, and its record says block 1. After
block 5 of a peer it is in block 1, and its record says block 6. -/
theorem counter_incoherent :
    (∃ s, chainExec byteCrypto newPlasmaChain [.insertChain [emptyBlock 1]] = .ok s ∧
      ¬ s.Coherent) ∧
    (∃ s, chainExec byteCrypto newPlasmaChain (.insertChain [emptyBlock 1] :: depositOps) = .ok s ∧
      recordedIn s = some (2, some 1)) ∧
    ∃ s, chainExec byteCrypto newPlasmaChain (.processPlasmaBlock (emptyBlock 5) :: depositOps) =
        .ok s ∧
      recordedIn s = some (1, some 6) := by
  refine ⟨⟨_, rfl, ?_⟩, ⟨_, rfl, by decide +kernel⟩, ⟨_, rfl, by decide +kernel⟩⟩
  rintro ⟨b, hb, hn⟩
  obtain rfl := Option.some.inj hb
  exact absurd hn (by decide)

end GoPlasma.Plasma
