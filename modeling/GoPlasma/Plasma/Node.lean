import GoPlasma.Plasma.Apply

/-!
# The node: transaction pool, minter and chain

`SendPlasmaTransaction`, `SendAnchorTransaction` and `processDeposit` (`plasmachain/backend.go`)
fill the pool (`plasmatxpool.go`), and the minter (`deep/poa.go`) makes a block of it. The tries of
a block are maps here, all store operations succeed, and what `SetChunk` writes besides the tries
is not read again by these functions.

Three things in the code are not determined: how `sort.Sort` orders equal elements, in which order
`range` visits a map, and in which order `removeDuplicates` returns owners. They are parts of the
operations here (`MintChoice` and the two lists of `Op.sendAnchor`).
-/

namespace GoPlasma.Plasma

/-! ## Tries and blocks -/

/-- The tries of a block, with the records under the hashes they hold. -/
structure Tries where
  tokens : GoMap UInt64 Token
  /-- By short address; `none` is a chunk that does not decode. -/
  accounts : GoMap Smt.Key (Option Account)
  chains : GoMap UInt64 AnchorBlock
  transactions : GoMap UInt64 Hash

/-- The maps are what the trees of a block show: no key is zero, since its row would be read back as
a subtree, and if there are accounts then some can be read, since a tree of accounts that cannot has
the root of the empty tree. -/
structure Tries.Legible (T : Tries) : Prop where
  tokens : 0 ∉ T.tokens.keys
  accounts : Smt.zeroKey ∉ T.accounts.keys
  chains : 0 ∉ T.chains.keys
  readable : T.accounts.keys.Nonempty → ∃ key ∈ T.accounts.keys, T.accounts.lookup key ≠ some none

instance (T : Tries) : Decidable T.Legible :=
  decidable_of_iff (0 ∉ T.tokens.keys ∧ Smt.zeroKey ∉ T.accounts.keys ∧ 0 ∉ T.chains.keys ∧
      (T.accounts.keys.Nonempty →
        ∃ key ∈ T.accounts.keys, T.accounts.lookup key ≠ some none))
    ⟨fun ⟨h₁, h₂, h₃, h₄⟩ => ⟨h₁, h₂, h₃, h₄⟩, fun h => ⟨h.1, h.2, h.3, h.4⟩⟩

/-- The storage of a state database opened at a block, of which the maps are legible and no store
operation fails: `TriesRun.reads` compares it with the trees. -/
def mapStorage (T : Tries) : Storage Unit where
  getToken tokenID st := .ok (match T.tokens.lookup tokenID with
    | none => .notFound
    | some t => .record t, st)
  hasToken tokenID st := .ok (.ok (T.tokens.lookup tokenID).isSome, st)
  getAccount key st := .ok (match T.accounts.lookup key with
    | none => .notFound
    | some none => .decodeErr "EOF"
    | some (some a) => .record a, st)
  getChain chainID st := .ok (match T.chains.lookup chainID with
    | none => .notFound
    | some c => .record c, st)
  setChunk _ _ st := .ok (.ok (), st)

/-- A block: its number, its body, and the tries that its header gives. -/
structure Block where
  number : ℕ
  transactions : List Transaction
  anchors : List AnchorTransaction
  tries : Tries

/-- The first block. -/
def genesis : Block := ⟨0, [], [], ⟨∅, ∅, ∅, ∅⟩⟩

/-! ## Committing the objects -/

/-- The orders in which `Commit` visits the maps. -/
structure MapOrder where
  tokens : List UInt64
  accounts : List Address
  chains : List UInt64

/-- Every key is visited once. -/
def Visits {κ α : Type} [DecidableEq κ] (l : List κ) (m : GoMap κ α) : Prop :=
  l.Nodup ∧ l.toFinset = m.keys

instance {κ α : Type} [DecidableEq κ] (l : List κ) (m : GoMap κ α) : Decidable (Visits l m) := by
  unfold Visits
  infer_instance

/-- The orders are possible ones. -/
def MapOrder.Valid (order : MapOrder) (o : Objects) : Prop :=
  Visits order.tokens o.tokenObjects ∧ Visits order.accounts o.accountObjects ∧
    Visits order.chains o.chainObjects

instance (order : MapOrder) (o : Objects) : Decidable (order.Valid o) := by
  unfold MapOrder.Valid
  infer_instance

/-- `updateTokenObject`; a missing entry of `thashList` gives the zero hash. -/
def updateTokenObject (o : Objects) (tokenID : UInt64) (T : Tries) : Tries :=
  match o.tokenObjects.lookup tokenID with
  | none => T
  | some s => { T with
      tokens := if s.deleted then T.tokens.erase tokenID else T.tokens.insert tokenID s.token
      transactions := T.transactions.insert tokenID ((o.thashList.lookup tokenID).getD zeroHash) }

/-- What a stored account reads back as: the encoder refuses negative numbers, and its error is
dropped. -/
def storedAccount (a : Account) : Option Account :=
  if a.denomination < 0 ∨ a.balance < 0 then none else some a

/-- `updateAccountObject`; it panics on a nil pointer. -/
def updateAccountObject (o : Objects) (addr : Address) (T : Tries) : Go Tries :=
  match o.accountObjects.lookup addr with
  | none => .ok T
  | some none => .error .nilDereference
  | some (some a) =>
      .ok { T with accounts := T.accounts.insert (shortAddr addr) (storedAccount a) }

/-- `updateChainObject` -/
def updateChainObject (o : Objects) (chainID : UInt64) (T : Tries) : Tries :=
  match o.chainObjects.lookup chainID with
  | none => T
  | some c => { T with chains := T.chains.insert chainID c }

/-- The accounts in the order of the map. -/
def updateAccountObjects (o : Objects) : List Address → Tries → Go Tries
  | [], T => .ok T
  | addr :: rest, T => do
      let T ← updateAccountObject o addr T
      updateAccountObjects o rest T

/-- `Commit` -/
def commit (order : MapOrder) (o : Objects) (T : Tries) : Go Tries := do
  let T := order.tokens.foldl (fun T tokenID => updateTokenObject o tokenID T) T
  let T ← updateAccountObjects o order.accounts T
  .ok (order.chains.foldl (fun T chainID => updateChainObject o chainID T) T)

/-- The last loop of `Commit`, over the map `atxList` in the order of the list: the anchor blocks of
the chains are sorted and go into the trie of anchors, which is a new one for each block. `sorted`
are the orders in which `sort.Slice` leaves the anchors. -/
def commitAnchors (o : Objects) (sorted : UInt64 → List AnchorTransaction) :
    List UInt64 → GoMap UInt64 AnchorBlock → Go (GoMap UInt64 AnchorBlock)
  | [], anchors => .ok anchors
  | chainID :: rest, anchors =>
    match o.atxList.lookup chainID with
    | none => commitAnchors o sorted rest anchors
    | some aobj => do
        let aobj ← aobj.sort (sorted chainID)
        commitAnchors o sorted rest (anchors.insert chainID aobj)

/-! ## The pool -/

/-- `PlasmaTxPool` -/
structure Pool where
  txpool : List Transaction
  wtxpool : List AnchorTransaction

section
variable (C : Crypto)

/-- `addTransactionToPool` -/
def Pool.addTransaction (p : Pool) (tx : Transaction) : Pool :=
  if p.txpool.any fun tx' => decide (tx'.hash C = tx.hash C) then p
  else { p with txpool := p.txpool ++ [tx] }

/-- `addAnchorTransactionToPool` -/
def Pool.addAnchorTransaction (p : Pool) (tx : AnchorTransaction) : Pool :=
  if p.wtxpool.any fun tx' => decide (tx'.hash C = tx.hash C) then p
  else { p with wtxpool := p.wtxpool ++ [tx] }

/-- `Hash` of either kind. -/
def Tx.hash : Tx → Hash
  | .plasma tx => tx.hash C
  | .anchor tx => tx.hash C

/-- `RemoveTransaction`: the first with the hash. -/
def Pool.removeTransaction (p : Pool) (txhash : Hash) : Except String Pool :=
  if p.txpool.any fun tx => decide (tx.hash C = txhash) then
    .ok { p with txpool := p.txpool.eraseP fun tx => decide (tx.hash C = txhash) }
  else if p.wtxpool.any fun tx => decide (tx.hash C = txhash) then
    .ok { p with wtxpool := p.wtxpool.eraseP fun tx => decide (tx.hash C = txhash) }
  else .error "tx not found"

end

/-- `PlasmabyTokenIDandPrevBlock.Less` -/
def Transaction.less (s t : Transaction) : Prop :=
  s.tokenID < t.tokenID ∨ (s.tokenID = t.tokenID ∧ s.prevBlock < t.prevBlock)

/-- `AnchorByChainIDandBlockNum.Less` -/
def AnchorTransaction.less (s t : AnchorTransaction) : Prop :=
  s.blockChainID < t.blockChainID ∨
    (s.blockChainID = t.blockChainID ∧ s.blockNumber < t.blockNumber)

instance (s t : Transaction) : Decidable (s.less t) := by
  unfold Transaction.less
  infer_instance

instance (s t : AnchorTransaction) : Decidable (s.less t) := by
  unfold AnchorTransaction.less
  infer_instance

/-- The transactions of the pool, as `GetTransactions` lists them. -/
def Pool.transactions (p : Pool) : List Tx := p.txpool.map .plasma ++ p.wtxpool.map .anchor

/-- The second list is the first one, sorted. -/
def Sorts {α : Type} (less : α → α → Prop) (l l' : List α) : Prop :=
  l'.Perm l ∧ l'.Pairwise fun a b => ¬ less b a

/-- `GetTransactions` may leave the pool so. -/
def Pool.SortedAs (p q : Pool) : Prop :=
  Sorts Transaction.less p.txpool q.txpool ∧ Sorts AnchorTransaction.less p.wtxpool q.wtxpool

instance Pool.decidableSortedAs (p q : Pool) : Decidable (p.SortedAs q) := by
  unfold Pool.SortedAs Sorts
  infer_instance

/-- What the code leaves open when it mints. -/
structure MintChoice where
  txs : List Transaction
  anchors : List AnchorTransaction
  order : MapOrder

/-- The pool can be sorted so. -/
def Pool.SortsTo (p : Pool) (c : MintChoice) : Prop := p.SortedAs ⟨c.txs, c.anchors⟩

instance (p : Pool) (c : MintChoice) : Decidable (p.SortsTo c) :=
  Pool.decidableSortedAs p ⟨c.txs, c.anchors⟩

/-! ## The node -/

/-- The node: `blockNumber` and `currentBlock` are its own fields in the source, `chain` are the
blocks it has written. -/
structure Node where
  pool : Pool
  currentBlock : Block
  blockNumber : ℕ
  chain : List Block

/-- A new node. -/
def newNode : Node := ⟨⟨[], []⟩, genesis, 0, [genesis]⟩

section
variable (C : Crypto)

/-- `validateTx` of a token transaction. -/
def validateTx (tx : Transaction) : Except String Unit := do
  tx.validateSig C
  if tx.prevBlock = 0 then
    let signer ← tx.getSigner C
    if signer ≠ C.operatorAddr then .error "Invalid Deposit signer" else .ok ()
  else .ok ()

/-- The local field `balance` that `SendPlasmaTransaction` fills in. -/
def Transaction.fillBalance (tx : Transaction) : Transaction :=
  if tx.balance = 0 then { tx with balance := tx.denomination - tx.allowance - tx.spent } else tx

/-- `SendPlasmaTransaction` -/
def sendPlasmaTransaction (tx : Transaction) (s : Node) : Node :=
  match validateTx C tx.fillBalance with
  | .error _ => s
  | .ok () => { s with pool := s.pool.addTransaction C tx.fillBalance }

/-- `SendAnchorTransaction`, where `removeDuplicates` has put the owners into these orders. -/
def sendAnchorTransaction (tx : AnchorTransaction) (addedOwners removedOwners : List Address)
    (s : Node) : Node :=
  if addedOwners.Nodup ∧ addedOwners.toFinset = tx.extra.addedOwners.toFinset ∧
      removedOwners.Nodup ∧ removedOwners.toFinset = tx.extra.removedOwners.toFinset then
    match tx.validateAnchor C addedOwners removedOwners with
    | .error _ => s
    | .ok tx => { s with pool := s.pool.addAnchorTransaction C tx }
  else s

/-- `processDeposit` -/
def processDeposit (t : TokenInfo) (s : Node) : Node :=
  match (depositTransaction C t).signByOperator C with
  | .error _ => s
  | .ok tx => { s with pool := s.pool.addTransaction C tx }

/-! ## Minting -/

/-- `RemoveTransaction` of a transaction that failed; the caller ignores its error. -/
def Pool.dropFailed (p : Pool) (tx : Tx) : Pool :=
  match p.removeTransaction C (tx.hash C) with
  | .error _ => p
  | .ok pool => pool

/-- What `commitTransactions` works on. `attempts` lists the attempts and whether they succeeded,
a history that the code does not keep. -/
structure Minting (σ : Type) where
  committed : List Tx
  pool : Pool
  env : Env σ
  attempts : List (Tx × Bool)

/-- `commitTransactions` from index `i` on: the first argument is `numtxns - i`, the second one
`txes[i:]`. A transaction that fails is taken from the pool and then tried again, because the loop
steps back although the list has not changed; each failure makes the loop one round shorter. -/
def commitTransactions {σ : Type} (S : Storage σ) (blockNumber : ℕ) :
    ℕ → List Tx → Minting σ → Go (Minting σ)
  | 0, _, m => .ok m
  | _ + 1, [], m => .ok m
  | i + 1, tx :: txes, m =>
    match commitTransaction C S blockNumber tx m.env with
    | .error p => .error p
    | .ok (.ok (), env) =>
        commitTransactions S blockNumber i txes
          ⟨m.committed ++ [tx], m.pool, env, m.attempts ++ [(tx, true)]⟩
    | .ok (.error _, env) =>
        -- `i--` and `numtxns--`: the same transaction again, with one round less to go
        commitTransactions S blockNumber i (tx :: txes)
          ⟨m.committed, m.pool.dropFailed C tx, env, m.attempts ++ [(tx, false)]⟩

/-- Take the transactions of a block from the pool; an error ends the loop, and is returned. -/
def Pool.removeAll (p : Pool) : List Tx → Pool × Option String
  | [] => (p, none)
  | tx :: txes =>
    match p.removeTransaction C (tx.hash C) with
    | .error err => (p, some ("[deep:poa:mintNewBlock] " ++ err))
    | .ok p => p.removeAll txes

/-- The token transactions of a list. -/
def plasmaTxs (txes : List Tx) : List Transaction :=
  txes.filterMap fun
    | .plasma tx => some tx
    | .anchor _ => none

/-- The anchor transactions of a list. -/
def anchorTxs (txes : List Tx) : List AnchorTransaction :=
  txes.filterMap fun
    | .plasma _ => none
    | .anchor tx => some tx

/-- `StateAt`: the state database is opened at the block, with a new trie of transactions. -/
def stateAt (b : Block) : Tries := { b.tries with transactions := ∅ }

/-- `GetTransactions` of a pool that was sorted. -/
def MintChoice.transactions (c : MintChoice) : List Tx :=
  Pool.transactions ⟨c.txs, c.anchors⟩

/-- `mintNewBlock`. Choices that the code cannot make leave the node as it is. -/
def mintNewBlock (c : MintChoice) (s : Node) : Go Node :=
  if s.pool.SortsTo c then do
    let T := stateAt s.currentBlock
    let m ← commitTransactions C (mapStorage T) s.blockNumber c.transactions.length c.transactions
      ⟨[], ⟨c.txs, c.anchors⟩, ⟨newStateDB, ()⟩, []⟩
    if m.committed = [] then .ok { s with pool := m.pool }
    else if c.order.Valid m.env.db.objects then do
      let T ← commit c.order m.env.db.objects T
      let block : Block :=
        ⟨s.currentBlock.number + 1, plasmaTxs m.committed, anchorTxs m.committed, T⟩
      .ok { pool := (m.pool.removeAll C m.committed).1
            currentBlock := block
            blockNumber := block.number
            chain := s.chain ++ [block] }
    else .ok s
  else .ok s

/-! ## Runs -/

/-- The calls of a node. -/
inductive Op where
  | deposit (t : TokenInfo)
  | send (tx : Transaction)
  | sendAnchor (tx : AnchorTransaction) (addedOwners removedOwners : List Address)
  | mint (c : MintChoice)

/-- One call. -/
def step (s : Node) : Op → Go Node
  | .deposit t => .ok (processDeposit C t s)
  | .send tx => .ok (sendPlasmaTransaction C tx s)
  | .sendAnchor tx a r => .ok (sendAnchorTransaction C tx a r s)
  | .mint c => mintNewBlock C c s

/-- The states of a node after calls that all meet a condition and do not panic. -/
inductive RunWith (P : Node → Op → Prop) : Node → Prop where
  | new : RunWith P newNode
  | step {s s' : Node} (op : Op) (h : RunWith P s) (hp : P s op) (hs : step C s op = .ok s') :
      RunWith P s'

/-- The states of a node after any calls that do not panic. -/
abbrev Run : Node → Prop := RunWith C fun _ _ => True

theorem RunWith.mono {P Q : Node → Op → Prop} {s : Node} (h : RunWith C P s)
    (hPQ : ∀ s op, P s op → Q s op) : RunWith C Q s := by
  induction h with
  | new => exact .new
  | step op _ hp hs ih => exact .step op ih (hPQ _ op hp) hs

/-- The call leaves a block whose maps are legible. -/
def MintsLegible (s : Node) (op : Op) : Prop :=
  ∀ s', step C s op = .ok s' → s'.currentBlock.tries.Legible

instance (s : Node) (op : Op) : Decidable (MintsLegible C s op) :=
  match h : step C s op with
  | .error _ => isTrue fun s' hs' => by
      rw [h] at hs'
      cases hs'
  | .ok s' => decidable_of_iff s'.currentBlock.tries.Legible
      ⟨fun hl _ hs' => Except.ok.inj (h.symm.trans hs') ▸ hl, fun hl => hl s' h⟩

/-- A list of calls, one after the other. -/
def exec (s : Node) : List Op → Go Node
  | [] => .ok s
  | op :: ops => do
      let s ← step C s op
      exec s ops

/-- A list of calls on a node that was reached before. -/
theorem Run.exec {s s' : Node} (hrun : Run C s) {ops : List Op} (h : exec C s ops = .ok s') :
    Run C s' := by
  induction ops generalizing s with
  | nil =>
    cases h
    exact hrun
  | cons op ops ih =>
    rw [Plasma.exec] at h
    rcases hs : Plasma.step C s op with p | s₁
    · rw [hs] at h
      cases h
    · rw [hs] at h
      exact ih (.step op hrun trivial hs) h

/-- A list of calls that all meet a condition and do not panic. -/
def execWith (P : Node → Op → Prop) [∀ s op, Decidable (P s op)] (s : Node) : List Op → Option Node
  | [] => some s
  | op :: ops =>
    if P s op then
      match step C s op with
      | .error _ => none
      | .ok s => execWith P s ops
    else none

theorem RunWith.execWith {P : Node → Op → Prop} [∀ s op, Decidable (P s op)] {s s' : Node}
    (hrun : RunWith C P s) {ops : List Op} (h : execWith C P s ops = some s') : RunWith C P s' := by
  induction ops generalizing s with
  | nil =>
    cases h
    exact hrun
  | cons op ops ih =>
    rw [Plasma.execWith] at h
    split_ifs at h with hp
    rcases hs : Plasma.step C s op with p | s₁
    · rw [hs] at h
      cases h
    · rw [hs] at h
      exact ih (.step op hrun hp hs) h

/-- A state that a list of calls on a new node leads to. -/
theorem exists_runWith (P : Node → Op → Prop) [∀ s op, Decidable (P s op)] (ops : List Op)
    (Q : Node → Prop) [DecidablePred Q]
    (h : (match execWith C P newNode ops with
      | some s => decide (Q s)
      | none => false) = true) : ∃ s, RunWith C P s ∧ Q s := by
  rcases hs : execWith C P newNode ops with _ | s
  · simp [hs] at h
  · simp only [hs, decide_eq_true_eq] at h
    exact ⟨s, RunWith.execWith C .new hs, h⟩

end

end GoPlasma.Plasma
