import GoPlasma.Plasma.StateDB

/-!
# Applying a transaction (`plasmachain/backend.go`)

`ApplyPlasmaTransaction` and `ApplyAnchorTransaction` check a transaction against the state, change
the objects of the state database, and last store the transaction itself. The two parts are apart
here, since an error has a different effect in each of them. `commitTransaction` (`deep/poa.go`) is
what the minter calls: it takes a snapshot and reverts to it when the transaction fails.
-/

namespace GoPlasma.Plasma

variable {σ : Type}

/-! ## Token transactions -/

/-- The local variables of `ApplyPlasmaTransaction`. -/
structure Work where
  sobj : TokenObject
  senderobj : Option (Ref Account)
  recipientobj : Option (Ref Account)
  dirtied : Bool
  senderdirtied : Bool

/-- The branch of a deposit. -/
def applyDeposit (S : Storage σ) (tx : Transaction)
    (senderobj recipientobj : Option (Ref Account)) :
    M σ Work := do
  let sobj ← createDeposit S tx.tokenID tx.denomination tx.recipient
  let recipientobj ← addToken tx.recipient tx.tokenID sobj.token.balance sobj.token.denomination
    recipientobj
  pure ⟨sobj, senderobj, recipientobj, true, false⟩

/-- The checks of a transfer against the record of the token. -/
def transferError (tx : Transaction) (sobj : TokenObject) : Option String :=
  let t := sobj.token
  if t.prevBlock ≠ tx.prevBlock.toNat ∧ t.prevBlock = 0 ∧
    ¬ (0 < t.denomination ∧ sobj.deleted = false)
  then some "Invalid fisrt transfer"
  else if t.prevBlock ≠ tx.prevBlock.toNat ∧ t.prevBlock ≠ 0 then some "Invalid PrevBlock"
  else if t.owner ≠ tx.prevOwner then some "Unauthorized token transfer"
  else if t.validDemination = false ∨ t.denomination ≠ tx.denomination
      ∨ tx.denomination ≠ tx.spent + tx.allowance + tx.balance
  then some "Invalid token amount"
  else none

/-- Ownership transfer. -/
def changeOwner (tx : Transaction) (w : Work) : M σ Work :=
  if w.sobj.token.owner ≠ tx.recipient then do
    let sobj ← setOwner tx.tokenID w.sobj tx.recipient
    let recipientobj ← addToken tx.recipient tx.tokenID sobj.token.balance sobj.token.denomination
      w.recipientobj
    let senderobj ← removeToken tx.prevOwner tx.tokenID sobj.token.balance sobj.token.denomination
      w.senderobj
    pure ⟨sobj, senderobj, recipientobj, true, true⟩
  else pure w

/-- Operator withdrawal. -/
def withdraw (tx : Transaction) (w : Work) : M σ Work :=
  if w.sobj.token.spent < tx.spent then do
    let sobj ← setWithdrawal tx.tokenID w.sobj tx.allowance tx.spent
    pure { w with sobj := sobj, dirtied := true }
  else pure w

/-- Bandwidth consumption: the difference is a `uint64`, and it is taken from the recipient. -/
def consume (tx : Transaction) (w : Work) : M σ Work :=
  if tx.balance ≠ w.sobj.token.balance then do
    let consumption := w.sobj.token.balance - tx.balance
    let sobj ← setBalance tx.tokenID w.sobj tx.balance tx.allowance
    let recipientobj ← setAccountBalance tx.recipient (fun b => b - consumption.toNat)
      w.recipientobj
    pure { w with sobj := sobj, recipientobj := recipientobj, dirtied := true }
  else pure w

/-- The branch of a transfer. -/
def applyTransfer (S : Storage σ) (tx : Transaction)
    (senderobj recipientobj : Option (Ref Account)) :
    M σ Work := do
  match ← getTokenObject S tx.tokenID with
  | none => .panic .nilDereference
  | some sobj =>
    match transferError tx sobj with
    | some e => .fail e
    | none => do
        let w ← changeOwner tx ⟨sobj, senderobj, recipientobj, false, false⟩
        let w ← withdraw tx w
        consume tx w

section
variable (C : Crypto) (S : Storage σ) (blockNumber : ℕ)

/-- One transaction for each token in a block, and the objects go into the maps. -/
def appendObjects (tx : Transaction) (w : Work) : M σ Unit := do
  match (← getObjects).tokenIsSet.lookup tx.tokenID with
  | some true =>
      .fail ("tokenID " ++ hexNat tx.tokenID.toNat ++ " has more than 1 transaction per SMT block")
  | _ =>
    if w.dirtied then do
      let sobj ← setPrevBlock tx.tokenID w.sobj (blockNumber + 1)
      append tx.tokenID sobj (tx.hash C)
      setAccountObject tx.recipient w.recipientobj
      if w.senderdirtied then setAccountObject tx.prevOwner w.senderobj else pure ()
    else .fail "Self-anchoring not allowed for now"

/-- `ApplyPlasmaTransaction` up to `StoreTransaction`. The error of the first `getOrCreateAccount`
is overwritten by the second call. -/
def updatePlasma (tx : Transaction) : M σ Unit := do
  let senderobj ← (getOrCreateAccount S tx.prevOwner).orElse fun _ => pure none
  let recipientobj ← getOrCreateAccount S tx.recipient
  let w ← if tx.prevBlock = 0 then applyDeposit S tx senderobj recipientobj
    else applyTransfer S tx senderobj recipientobj
  appendObjects C blockNumber tx w

/-- `SetChunk`, whose error the callers return. -/
def setChunk (k v : Bytes) : M σ Unit := do
  match ← onStore (S.setChunk k v) with
  | .error e => .fail e
  | .ok () => pure ()

/-- The encoding of a `TokenInfo`. -/
def TokenInfo.bytes (t : TokenInfo) : Bytes :=
  Rlp.encode (.list [Rlp.uint t.depositIndex.toNat, Rlp.uint t.denomination.toNat,
    .str t.depositor.1])

/-- `StoreTransaction` -/
def storeTransaction (tx : Transaction) (blockNumber : ℕ) : M σ Unit := do
  setChunk S (ascii "raw" ++ (tx.hash C).1) tx.bytes
  setChunk S (ascii "plasmabn" ++ (tx.hash C).1) (uInt64ToByte (UInt64.ofNat blockNumber))
  if tx.prevBlock = 0 then do
    setChunk S (ascii "plasmaDeposit" ++ uInt64ToByte tx.tokenID)
      (uInt64ToByte (UInt64.ofNat blockNumber))
    let tokenID := tokenKey C tx.depositIndex tx.denomination tx.recipient
    if tokenID ≠ tx.tokenID then
      .fail ("Invalid tokenID key: " ++ hexNat tokenID.toNat ++ "\n")
    else
      setChunk S (C.keccak (ascii ("plasmaTokenInfo" ++ hexNat tokenID.toNat))).1
        (TokenInfo.bytes ⟨tx.depositIndex, tx.denomination, tx.recipient⟩)
  else pure ()

/-- `ApplyPlasmaTransaction` -/
def applyPlasmaTransaction (tx : Transaction) : M σ Unit := do
  updatePlasma C S blockNumber tx
  storeTransaction C S tx (blockNumber + 1)

end

/-! ## Anchor transactions -/

/-- Add the new ones of a list of owners. -/
def addOwners (chainID : UInt64) :
    List Address → Option (Ref AnchorBlock) → M σ (Option (Ref AnchorBlock))
  | [], chainObj => pure chainObj
  | newOwner :: rest, chainObj => do
      let c ← deref (Objects.chain chainID) chainObj
      let chainObj ← if newOwner ∈ c.owners then pure chainObj
        else addOwner chainID newOwner chainObj
      addOwners chainID rest chainObj

/-- Remove those of a list that are owners. -/
def removeOwners (chainID : UInt64) :
    List Address → Option (Ref AnchorBlock) → M σ (Option (Ref AnchorBlock))
  | [], chainObj => pure chainObj
  | addr :: rest, chainObj => do
      let c ← deref (Objects.chain chainID) chainObj
      let chainObj ←
        if addr ∈ c.owners then
          if c.owners.length = 1 then .fail "Can not remove only owner"
          else removeOwner chainID addr chainObj
        else pure chainObj
      removeOwners chainID rest chainObj

section
variable (C : Crypto)

/-- The branch of block 0: register the chain. -/
def registerChain (anchorTx : AnchorTransaction) (chainObj : Option (Ref AnchorBlock)) :
    M σ (Option (Ref AnchorBlock)) := do
  let chainID := anchorTx.blockChainID
  let c ← deref (Objects.chain chainID) chainObj
  if 0 < c.owners.length ∨ 0 < c.endBlock then .fail "Invalid Anchor 0"
  else
    match anchorTx.getSigner C with
    | .error e => .fail e
    | .ok signer => do
        let chainObj ← addOwner chainID signer chainObj
        if 0 < anchorTx.extra.removedOwners.length then .fail "Can't remove user with Anchor 0 "
        else addOwners chainID anchorTx.extra.addedOwners chainObj

/-- The checks of an anchor against the record of its chain. When the signature gives no signer the
zero address is looked up. -/
def anchorError (anchorTx : AnchorTransaction) (c : AnchorBlock) : Option String :=
  let signer := match anchorTx.getSigner C with
    | .error _ => zeroAddress
    | .ok signer => signer
  if c.owners.length = 0 then some "Unregistered Chain"
  else if c.endBlock = anchorTx.blockNumber then
    some ("Attempted ReAnchoring [#" ++ toString anchorTx.blockNumber.toNat ++ "]")
  else if c.endBlock + 1 ≠ anchorTx.blockNumber then
    some ("Jumped Sequence: Last Block [#" ++ toString c.endBlock.toNat ++ "] >>> Anchor [#"
      ++ toString anchorTx.blockNumber.toNat ++ "]")
  else if signer ∉ c.owners then some ("Invalid Signer: " ++ hexBytes signer.1)
  else none

/-- The branch of a later block. -/
def extendChain (anchorTx : AnchorTransaction) (chainObj : Option (Ref AnchorBlock)) :
    M σ (Option (Ref AnchorBlock)) := do
  let chainID := anchorTx.blockChainID
  let c ← deref (Objects.chain chainID) chainObj
  match anchorError C anchorTx c with
  | some e => .fail e
  | none => do
      let chainObj ← addOwners chainID anchorTx.extra.addedOwners chainObj
      removeOwners chainID anchorTx.extra.removedOwners chainObj

/-- The checks of `ApplyAnchorTransaction` and the changes of the owners. -/
def updateOwners (S : Storage σ) (anchorTx : AnchorTransaction) :
    M σ (Option (Ref AnchorBlock)) := do
  let chainObj ← getOrCreateChain S anchorTx.blockChainID
  if anchorTx.blockNumber = 0 then registerChain C anchorTx chainObj
  else extendChain C anchorTx chainObj

/-- `s.atxList[chainID]` with the anchor added. -/
def addToAtxList (anchorTx : AnchorTransaction) (o : Objects) : AnchorBlock :=
  match o.atxList.lookup anchorTx.blockChainID with
  | some aobj => aobj.addAnchorTx anchorTx
  | none => newAnchorBlock anchorTx

/-- The range of anchored blocks, and the objects go into the maps. -/
def appendAnchorObjects (anchorTx : AnchorTransaction) (chainObj : Option (Ref AnchorBlock)) :
    M σ Unit := do
  let chainID := anchorTx.blockChainID
  let o ← getObjects
  let chainObj ← if (o.chainIsSet.lookup chainID).isSome then pure chainObj
    else setStartBlock chainID anchorTx.blockNumber chainObj
  let chainObj ← setEndBlock chainID anchorTx.blockNumber chainObj
  let c ← deref (Objects.chain chainID) chainObj
  appendAnchor chainID c
  modifyObjects fun o => { o with atxList := o.atxList.insert chainID (addToAtxList anchorTx o) }

/-- `ApplyAnchorTransaction` up to `StoreAnchorTransaction`. -/
def updateAnchor (S : Storage σ) (anchorTx : AnchorTransaction) : M σ Unit := do
  let chainObj ← updateOwners C S anchorTx
  appendAnchorObjects anchorTx chainObj

/-- `StoreAnchorTransaction` -/
def storeAnchorTransaction (S : Storage σ) (tx : AnchorTransaction) (blockNumber : ℕ) :
    M σ Unit := do
  setChunk S (ascii "raw" ++ (tx.hash C).1) tx.bytes
  setChunk S (ascii "plasmabn" ++ (tx.hash C).1) (uInt64ToByte (UInt64.ofNat blockNumber))
  setChunk S (ascii "anchor" ++ (tx.hash C).1) (uInt64ToByte tx.blockNumber)

/-- `ApplyAnchorTransaction` -/
def applyAnchorTransaction (S : Storage σ) (blockNumber : ℕ) (anchorTx : AnchorTransaction) :
    M σ Unit := do
  updateAnchor C S anchorTx
  storeAnchorTransaction C S anchorTx (blockNumber + 1)

end

/-! ## Committing -/

/-- A transaction of either kind. -/
inductive Tx where
  | plasma (tx : Transaction)
  | anchor (tx : AnchorTransaction)
deriving DecidableEq

section
variable (C : Crypto) (S : Storage σ) (blockNumber : ℕ)

/-- `ApplyTransaction` up to storing the transaction. -/
def updateObjects : Tx → M σ Unit
  | .plasma tx => updatePlasma C S blockNumber tx
  | .anchor tx => updateAnchor C S tx

/-- `StoreTransaction` and `StoreAnchorTransaction`. -/
def storeTx (blockNumber : ℕ) : Tx → M σ Unit
  | .plasma tx => storeTransaction C S tx blockNumber
  | .anchor tx => storeAnchorTransaction C S tx blockNumber

/-- `ApplyTransaction` -/
def applyTransaction : Tx → M σ Unit
  | .plasma tx => applyPlasmaTransaction C S blockNumber tx
  | .anchor tx => applyAnchorTransaction C S blockNumber tx

/-- What `commitTransaction` does when the transaction failed with `err`. -/
def revertFailed (id : ℕ) (err : String) : M σ Unit := do
  (revertToSnapshot S id).orElse fun reverterr =>
    .fail ("[deep:poa:commitTransaction] " ++ err ++ ", " ++ reverterr)
  .fail ("[deep:poa:commitTransaction] " ++ err)

/-- `commitTransaction` -/
def commitTransaction (tx : Tx) : M σ Unit := do
  let id ← snapshot
  (applyTransaction C S blockNumber tx).orElse (revertFailed S id)

theorem applyTransaction_eq (tx : Tx) :
    applyTransaction C S blockNumber tx =
      (do updateObjects C S blockNumber tx; storeTx C S (blockNumber + 1) tx) := by
  cases tx with
  | plasma tx => rfl
  | anchor tx => rfl

end

end GoPlasma.Plasma
