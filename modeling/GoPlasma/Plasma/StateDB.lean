import GoPlasma.Plasma.Transaction
import GoPlasma.Lib.Act
import Mathlib.Data.Finmap

/-!
# The state database (`plasmachain/statedb.go`, `journal.go`)

A `StateDB` holds the token, account and chain objects that the transactions of a block have
changed, and a journal from which `RevertToSnapshot` undoes changes. What it reads from storage is
the parameter `Storage`, which may answer anything, fail or panic at any call.

Go maps are finite maps. A map of pointers is a map of objects: an object that a function holds is
either the one in the map (`Ref.held`) or one of its own (`Ref.fresh`), and a change to the first is
a change of the map. Object fields that repeat the key of the object are left out. The map of
accounts may hold nil pointers: a withdrawal puts its recipient's object there without looking at
it.
-/

namespace GoPlasma.Plasma

/-! ## Storage -/

/-- How a record is read: its hash is looked up in a trie, the chunk under the hash is fetched, and
the chunk is decoded. -/
inductive RecordRead (α : Type) where
  | getErr (e : String)
  | notFound
  | chunkErr (e : String)
  | chunkMissing
  | decodeErr (e : String)
  | record (a : α)
deriving DecidableEq

/-- The storage as the state database sees it; `σ` is its own state. -/
structure Storage (σ : Type) where
  getToken : UInt64 → σ → Go (RecordRead Token × σ)
  /-- Whether the token trie has the key. -/
  hasToken : UInt64 → σ → Go (Except String Bool × σ)
  getAccount : Smt.Key → σ → Go (RecordRead Account × σ)
  getChain : UInt64 → σ → Go (RecordRead AnchorBlock × σ)
  setChunk : Bytes → Bytes → σ → Go (Except String Unit × σ)

/-! ## Objects and journal -/

/-- A Go map. -/
abbrev GoMap (κ α : Type) := Finmap fun _ : κ => α

/-- `tokenObject` -/
structure TokenObject where
  token : Token
  deleted : Bool

/-- The maps of a `StateDB`. -/
structure Objects where
  tokenObjects : GoMap UInt64 TokenObject
  tokenIsSet : GoMap UInt64 Bool
  accountObjects : GoMap Address (Option Account)
  chainObjects : GoMap UInt64 AnchorBlock
  chainIsSet : GoMap UInt64 Bool
  thashList : GoMap UInt64 Hash
  atxList : GoMap UInt64 AnchorBlock

/-- The entries that the setters add to the journal. -/
inductive JournalEntry where
  | exitChange (tokenID : UInt64)
  | balanceChange (tokenID prevBalance prevAllowance : UInt64)
  | withdrawChange (tokenID prevAllowance prevSpent : UInt64)
  | ownerChange (tokenID : UInt64) (prevOwner : Address)
  | prevBlockChange (tokenID : UInt64) (prevBlock : ℕ)
  | accountTokenChange (addr : Address) (prevTokens : List UInt64)
      (prevAcctBalance prevAcctDenomination : ℤ)
  | accountBalanceChange (addr : Address) (prevAcctBalance : ℤ)
  | accountDenominationChange (addr : Address) (prevAcctDenomination : ℤ)
  | chainOwnerChange (chainID : UInt64) (prevOwners : List Address)
  | anchorBlockChange (chainID prevStart prevEnd : UInt64)

/-- `revision` -/
structure Revision where
  id : ℕ
  journalIndex : ℕ

/-- `StateDB` -/
structure StateDB where
  objects : Objects
  journal : List JournalEntry
  validRevisions : List Revision
  nextRevisionId : ℕ

/-- `NewStateDB` -/
def newStateDB : StateDB := ⟨⟨∅, ∅, ∅, ∅, ∅, ∅, ∅⟩, [], [], 0⟩

/-- The state database and the storage below it. -/
structure Env (σ : Type) where
  db : StateDB
  store : σ

/-- A call on the state database. -/
abbrev M (σ : Type) := Act Panic String (Env σ)

/-- A pointer to an object: the one in the map, or one that is in no map. A nil pointer is `none`
of `Option (Ref α)`. -/
inductive Ref (α : Type) where
  | held
  | fresh (a : α)

variable {σ : Type}

/-- A call of the storage. -/
def onStore {α : Type} (op : σ → Go (α × σ)) : M σ α := fun w =>
  match op w.store with
  | .error p => .error p
  | .ok (a, st) => .ok (.ok a, { w with store := st })

/-- Change the maps. -/
def modifyObjects (f : Objects → Objects) : M σ Unit :=
  Act.modify fun w => { w with db := { w.db with objects := f w.db.objects } }

/-- `AddEntry` -/
def addEntry (e : JournalEntry) : M σ Unit :=
  Act.modify fun w => { w with db := { w.db with journal := w.db.journal ++ [e] } }

/-- The maps. -/
def getObjects : M σ Objects := do
  let w ← Act.get
  pure w.db.objects

/-- The object behind a pointer; `held` finds the one in the map. -/
def deref {α : Type} (held : Objects → Option α) : Option (Ref α) → M σ α
  | none => .panic .nilDereference
  | some (.fresh a) => pure a
  | some .held => do
      match held (← getObjects) with
      | none => .panic .nilDereference
      | some a => pure a

/-! ## Token objects -/

/-- `getTokenObject`; `none` is the nil pointer that a missing chunk gives. -/
def getTokenObject (S : Storage σ) (tokenID : UInt64) : M σ (Option TokenObject) := do
  match ← onStore (S.getToken tokenID) with
  | .getErr e => .fail e
  | .notFound => .fail "Not found"
  | .chunkErr e => .fail e
  | .chunkMissing => pure none
  | .decodeErr e => .fail e
  | .record t => pure (some ⟨t, false⟩)

/-- `createDeposit` -/
def createDeposit (S : Storage σ) (tokenID denomination : UInt64) (owner : Address) :
    M σ TokenObject := do
  match ← onStore (S.hasToken tokenID) with
  | .error e => .fail e
  | .ok true => .fail "tokenID collation"
  | .ok false => pure ⟨⟨denomination, 0, owner, denomination, 0, 0⟩, false⟩

/-- `SetOwner` -/
def setOwner (tokenID : UInt64) (s : TokenObject) (owner : Address) : M σ TokenObject := do
  addEntry (.ownerChange tokenID s.token.owner)
  pure { s with token := { s.token with owner := owner } }

/-- `SetPrevBlock` -/
def setPrevBlock (tokenID : UInt64) (s : TokenObject) (prevBlocknum : ℕ) : M σ TokenObject := do
  addEntry (.prevBlockChange tokenID s.token.prevBlock)
  pure { s with token := { s.token with prevBlock := prevBlocknum } }

/-- `SetBalance` -/
def setBalance (tokenID : UInt64) (s : TokenObject) (balance allowance : UInt64) :
    M σ TokenObject := do
  addEntry (.balanceChange tokenID s.token.balance s.token.allowance)
  pure { s with token := { s.token with balance := balance, allowance := allowance } }

/-- `SetWithdrawal` -/
def setWithdrawal (tokenID : UInt64) (s : TokenObject) (allowance spent : UInt64) :
    M σ TokenObject := do
  addEntry (.withdrawChange tokenID s.token.allowance s.token.spent)
  pure { s with token := { s.token with allowance := allowance, spent := spent } }

/-- `SetExit` -/
def setExit (tokenID : UInt64) (s : TokenObject) : M σ TokenObject := do
  addEntry (.exitChange tokenID)
  pure { s with deleted := true }

/-- `ValidDemination` -/
def Token.validDemination (t : Token) : Bool :=
  decide (t.denomination = t.balance + t.spent + t.allowance)

/-! ## Account objects -/

/-- The account object in the map. -/
def Objects.account (addr : Address) (o : Objects) : Option Account :=
  (o.accountObjects.lookup addr).join

/-- `getOrCreateAccount` -/
def getOrCreateAccount (S : Storage σ) (addr : Address) : M σ (Option (Ref Account)) := do
  match (← getObjects).accountObjects.lookup addr with
  | some none => pure none
  | some (some _) => pure (some .held)
  | none =>
    match ← onStore (S.getAccount (shortAddr addr)) with
    | .getErr e => .fail e
    | .notFound => pure (some (.fresh ⟨[], 0, 0⟩))
    | .chunkErr e => .fail e
    | .chunkMissing => pure none
    | .decodeErr e => .fail e
    | .record acct => pure (some (.fresh acct))

/-- `getAccountObject`: the record in the trie, whatever the maps hold; `none` is the nil pointer
that a missing chunk gives. -/
def getAccountObject (S : Storage σ) (addr : Address) : M σ (Option Account) := do
  match ← onStore (S.getAccount (shortAddr addr)) with
  | .getErr e => .fail e
  | .notFound => .fail "Not found"
  | .chunkErr e => .fail e
  | .chunkMissing => pure none
  | .decodeErr e => .fail e
  | .record acct => pure (some acct)

/-- `GetAccount` -/
def getAccount (S : Storage σ) (addr : Address) : M σ Account := do
  match ← getAccountObject S addr with
  | none => .panic .nilDereference
  | some acct => pure acct

/-- Assign to the object behind a pointer. -/
def assignAccount (addr : Address) (a : Account) : Ref Account → M σ (Option (Ref Account))
  | .fresh _ => pure (some (.fresh a))
  | .held => do
      modifyObjects fun o => { o with accountObjects := o.accountObjects.insert addr (some a) }
      pure (some .held)

/-- Change an account through a pointer, after adding a journal entry made of the old one. -/
def updateAccount (addr : Address) (entry : Account → JournalEntry) (f : Account → Account)
    (p : Option (Ref Account)) : M σ (Option (Ref Account)) := do
  let a ← deref (Objects.account addr) p
  addEntry (entry a)
  match p with
  | none => .panic .nilDereference
  | some r => assignAccount addr (f a) r

/-- The journal entry of `AddToken` and `RemoveToken`. -/
def tokenChange (addr : Address) (a : Account) : JournalEntry :=
  .accountTokenChange addr a.tokens a.balance a.denomination

/-- `AddToken` -/
def addToken (addr : Address) (tokenID tokenBalance tokenDenomination : UInt64) :
    Option (Ref Account) → M σ (Option (Ref Account)) :=
  updateAccount addr (tokenChange addr) fun a =>
    ⟨a.tokens ++ [tokenID], a.denomination + tokenDenomination.toNat,
      a.balance + tokenBalance.toNat⟩

/-- `RemoveToken` -/
def removeToken (addr : Address) (tokenID tokenBalance tokenDenomination : UInt64) :
    Option (Ref Account) → M σ (Option (Ref Account)) :=
  updateAccount addr (tokenChange addr) fun a =>
    ⟨a.tokens.filter (fun tID => tID ≠ tokenID), a.denomination - tokenDenomination.toNat,
      a.balance - tokenBalance.toNat⟩

/-- `SetAccountBalance` of the balance that `f` makes of the old one. -/
def setAccountBalance (addr : Address) (f : ℤ → ℤ) :
    Option (Ref Account) → M σ (Option (Ref Account)) :=
  updateAccount addr (fun a => .accountBalanceChange addr a.balance) fun a =>
    { a with balance := f a.balance }

/-- `SetAccountDenomination` of the denomination that `f` makes of the old one. -/
def setAccountDenomination (addr : Address) (f : ℤ → ℤ) :
    Option (Ref Account) → M σ (Option (Ref Account)) :=
  updateAccount addr (fun a => .accountDenominationChange addr a.denomination) fun a =>
    { a with denomination := f a.denomination }

/-! ## Chain objects -/

/-- The chain object in the map. -/
def Objects.chain (chainID : UInt64) (o : Objects) : Option AnchorBlock :=
  o.chainObjects.lookup chainID

/-- `getOrCreateChain` -/
def getOrCreateChain (S : Storage σ) (chainID : UInt64) : M σ (Option (Ref AnchorBlock)) := do
  match (← getObjects).chainObjects.lookup chainID with
  | some _ => pure (some .held)
  | none =>
    match ← onStore (S.getChain chainID) with
    | .getErr e => .fail e
    | .notFound => pure (some (.fresh ⟨[], [], 0, 0⟩))
    | .chunkErr e => .fail e
    | .chunkMissing => pure none
    | .decodeErr e => .fail e
    | .record anb => pure (some (.fresh anb))

/-- Assign to the object behind a pointer. -/
def assignChain (chainID : UInt64) (c : AnchorBlock) :
    Ref AnchorBlock → M σ (Option (Ref AnchorBlock))
  | .fresh _ => pure (some (.fresh c))
  | .held => do
      modifyObjects fun o => { o with chainObjects := o.chainObjects.insert chainID c }
      pure (some .held)

/-- Change a chain object through a pointer, after adding a journal entry made of the old one. -/
def updateChain (chainID : UInt64) (entry : AnchorBlock → JournalEntry)
    (f : AnchorBlock → AnchorBlock) (p : Option (Ref AnchorBlock)) :
    M σ (Option (Ref AnchorBlock)) := do
  let c ← deref (Objects.chain chainID) p
  addEntry (entry c)
  match p with
  | none => .panic .nilDereference
  | some r => assignChain chainID (f c) r

/-- The journal entry of `AddOwner` and `RemoveOwner`. -/
def ownersChange (chainID : UInt64) (c : AnchorBlock) : JournalEntry :=
  .chainOwnerChange chainID c.owners

/-- The journal entry of `SetStartBlock` and `SetEndBlock`: both record the end block twice. -/
def blockChange (chainID : UInt64) (c : AnchorBlock) : JournalEntry :=
  .anchorBlockChange chainID c.endBlock c.endBlock

/-- `AddOwner` -/
def addOwner (chainID : UInt64) (addr : Address) :
    Option (Ref AnchorBlock) → M σ (Option (Ref AnchorBlock)) :=
  updateChain chainID (ownersChange chainID) fun c => { c with owners := c.owners ++ [addr] }

/-- `RemoveOwner`. The owners are a list of pointers and `remove` compares them with a pointer to
its own argument, so that none is removed. -/
def removeOwner (chainID : UInt64) (_addr : Address) :
    Option (Ref AnchorBlock) → M σ (Option (Ref AnchorBlock)) :=
  updateChain chainID (ownersChange chainID) fun c => c

/-- `SetStartBlock` -/
def setStartBlock (chainID startBlock : UInt64) :
    Option (Ref AnchorBlock) → M σ (Option (Ref AnchorBlock)) :=
  updateChain chainID (blockChange chainID) fun c => { c with startBlock := startBlock }

/-- `SetEndBlock` -/
def setEndBlock (chainID endBlock : UInt64) :
    Option (Ref AnchorBlock) → M σ (Option (Ref AnchorBlock)) :=
  updateChain chainID (blockChange chainID) fun c => { c with endBlock := endBlock }

/-! ## Snapshots -/

/-- A token entry is undone on a copy that is read from storage for the purpose. -/
def revertToken (S : Storage σ) (tokenID : UInt64) (set : TokenObject → M σ TokenObject) :
    M σ Unit := do
  match ← getTokenObject S tokenID with
  | none => .panic .nilDereference
  | some tobj => do
      let _ ← set tobj
      pure ()

/-- An account entry is undone on the object that `getOrCreateAccount` gives. -/
def revertAccount (S : Storage σ) (addr : Address) (f : Account → Account) : M σ Unit := do
  let ao ← getOrCreateAccount S addr
  let a ← deref (Objects.account addr) ao
  match ao with
  | none => .panic .nilDereference
  | some r => do
      let _ ← assignAccount addr (f a) r
      pure ()

/-- A chain entry is undone on the object that `getOrCreateChain` gives. -/
def revertChain (S : Storage σ) (chainID : UInt64) (f : AnchorBlock → AnchorBlock) : M σ Unit := do
  let co ← getOrCreateChain S chainID
  let c ← deref (Objects.chain chainID) co
  match co with
  | none => .panic .nilDereference
  | some r => do
      let _ ← assignChain chainID (f c) r
      pure ()

/-- `revert` -/
def JournalEntry.revert (S : Storage σ) : JournalEntry → M σ Unit
  | .exitChange tokenID => revertToken S tokenID fun t => pure { t with deleted := false }
  | .balanceChange tokenID b a => revertToken S tokenID fun t => setBalance tokenID t b a
  | .withdrawChange tokenID a s => revertToken S tokenID fun t => setWithdrawal tokenID t a s
  | .ownerChange tokenID o => revertToken S tokenID fun t => setOwner tokenID t o
  | .prevBlockChange tokenID b => revertToken S tokenID fun t => setPrevBlock tokenID t b
  | .accountTokenChange addr ts b d => revertAccount S addr fun _ => ⟨ts, d, b⟩
  | .accountBalanceChange addr b => revertAccount S addr fun a => { a with balance := b }
  | .accountDenominationChange addr d => revertAccount S addr fun a => { a with denomination := d }
  | .chainOwnerChange chainID os => revertChain S chainID fun c => { c with owners := os }
  | .anchorBlockChange chainID s e =>
      revertChain S chainID fun c => { c with startBlock := s, endBlock := e }

/-- `Snapshot` -/
def snapshot : M σ ℕ := do
  let w ← Act.get
  let id := w.db.nextRevisionId
  Act.modify fun w => { w with db := { w.db with
    nextRevisionId := id + 1
    validRevisions := w.db.validRevisions ++ [⟨id, w.db.journal.length⟩] } }
  pure id

/-- `RevertToSnapshot`; the revisions are in the order of their ids, where `sort.Search` finds the
first one from `revid` on. Errors of the single entries are dropped. -/
def revertToSnapshot (S : Storage σ) (revid : ℕ) : M σ Unit := do
  let w ← Act.get
  let idx := w.db.validRevisions.findIdx fun r => decide (revid ≤ r.id)
  let err := "[statedb:RevertToSnapshot] revision id " ++ toString revid ++ " cannot be reverted"
  match w.db.validRevisions[idx]? with
  | none => .fail err
  | some r =>
    if r.id ≠ revid then .fail err
    else do
      Act.each (fun e => (e.revert S).orElse fun _ => pure ())
        (w.db.journal.drop r.journalIndex).reverse
      Act.modify fun w => { w with db := { w.db with
        journal := w.db.journal.take r.journalIndex
        validRevisions := w.db.validRevisions.take idx } }

/-- `Append` -/
def append (tokenID : UInt64) (sobj : TokenObject) (txhash : Hash) : M σ Unit :=
  modifyObjects fun o => { o with
    tokenObjects := o.tokenObjects.insert tokenID sobj
    tokenIsSet := o.tokenIsSet.insert tokenID true
    thashList := o.thashList.insert tokenID txhash }

/-- `accountObjects[addr] = p` -/
def setAccountObject (addr : Address) : Option (Ref Account) → M σ Unit
  | none => modifyObjects fun o => { o with accountObjects := o.accountObjects.insert addr none }
  | some (.fresh a) =>
      modifyObjects fun o => { o with accountObjects := o.accountObjects.insert addr (some a) }
  | some .held => pure ()

/-- `AppendAnchor` -/
def appendAnchor (chainID : UInt64) (c : AnchorBlock) : M σ Unit :=
  modifyObjects fun o => { o with
    chainObjects := o.chainObjects.insert chainID c
    chainIsSet := o.chainIsSet.insert chainID true }

end GoPlasma.Plasma
