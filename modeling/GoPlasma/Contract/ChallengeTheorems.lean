import GoPlasma.Contract.MembershipTheorems

/-!
# Challenges against the child chain

`challengeBefore_reverts`: nothing can be shown to `challengeBefore` against linked histories.
`exit_challengeable`: an exit of a token with a linked history that does not rest on its last
transaction can be challenged with one of its transactions. A token is named by 64 bits of a hash
of its depositor; an exit by another address with the same 64 bits is the exception
(`exit_not_challengeable`).
-/

namespace GoPlasma.Contract

open Plasma (Address Block Transaction forToken included Linked)
open Smt (Contents FlushedTree hashPair hashedPairs keyOf num treeDepth)

variable {E : Evm} {msg : Msg} {s s' : RootChain} {log : List Event} {now : UInt64}
  {blocks : List Block}

/-! ## `challengeBefore` -/

/-- No transaction is published for the block 0. -/
def SkipsZero (call : Call) : Prop := ∀ root, call ≠ .submitBlock root 0

theorem RunWith.childChain_zero {P : RootChain → Msg → Call → Prop}
    (hP : ∀ s msg call, P s msg call → SkipsZero call) (h : RunWith E P s now log) :
    s.childChain 0 = zeroHash := by
  refine h.childChain (I := fun roots => roots 0 = zeroHash) rfl ?_
  intro s msg root blknum hp hi
  have hne : blknum ≠ 0 := by
    rintro rfl
    exact hP s msg _ hp root rfl
  rwa [Function.update_of_ne hne.symm]

/-- Against blocks whose histories are linked `challengeBefore` reverts, whatever it is shown. -/
theorem challengeBefore_reverts
    (hrun : RunWith E (fun _ _ call => Publishes E blocks call ∧ SkipsZero call) s now log)
    (hlinked : ∀ t, Linked (included t blocks)) (hzero : ∀ x, E.keccak x ≠ zeroHash)
    {txBytes proof faultyTxBytes faultyProof : Bytes} {blk faultyBlk : UInt64}
    (hinj : Set.InjOn E.keccak (chainInputs E.keccak blocks ∪
      memberInputs E s.smt (msg.behind 0) txBytes proof ∪
      memberInputs E s.smt (msg.behind 1) faultyTxBytes faultyProof)) :
    ∃ e, s.challengeBefore E msg txBytes proof blk faultyTxBytes faultyProof faultyBlk
      = .error e := by
  rcases hcall : s.challengeBefore E msg txBytes proof blk faultyTxBytes faultyProof faultyBlk with
    e | s'
  · exact ⟨e, rfl⟩
  exfalso
  obtain ⟨p, q, hok, -⟩ := challengeBefore_ok hcall
  have hpub := hrun.published fun _ _ _ hp => hp.1
  obtain ⟨tx, htx, -, _, rfl⟩ := hpub.included hzero hinj
    (fun x hx => .inl (.inl hx)) (fun x hx => .inl (.inr hx)) hok.parse hok.member
  obtain ⟨ftx, hftx, -, _, rfl⟩ := hpub.included hzero hinj
    (fun x hx => .inl (.inl hx)) (fun x hx => .inr hx) hok.parseFaulty hok.memberFaulty
  -- block 0 has no root to be a member of
  have hblk : blk.toNat ≠ 0 := by
    intro h0
    obtain rfl : blk = 0 := UInt64.toNat_inj.mp h0
    exact root_ne_zero hzero hok.member (hrun.childChain_zero fun _ _ _ hp => hp.2)
  have hsame : (parsed tx _).tokenID = (parsed ftx _).tokenID := hok.sameToken
  rw [← hsame] at hftx
  have hnamed : ftx.prevBlock.toNat = blk.toNat := congrArg UInt64.toNat hok.link.symm
  exact hok.owner (recipient_of_named (hlinked _) htx hftx hnamed hblk).symm

theorem smallHash_ne_zero (x : Bytes) : smallHash x ≠ zeroHash := by
  rw [smallHash]
  split_ifs
  · decide
  · intro h
    have hdrop := congrArg (fun y : Hash => Bytes.ofBE (y.1.drop 24)) h
    have hlt : Bytes.ofBE (1 :: x) % (2 ^ 61 - 1) < 2 ^ 61 - 1 := Nat.mod_lt _ (by norm_num)
    simp only [List.drop_left' (Bytes.length_zeros 24)] at hdrop
    rw [Bytes.ofBE_toBE_of_lt (by omega)] at hdrop
    have hzero : Bytes.ofBE (zeroHash.1.drop 24) = 0 := by decide
    omega

/-- The history of a token that was deposited and given away. -/
def twoTxs (n : ℕ) (deposit transfer : Transaction) : List (ℕ × Transaction) :=
  [(n, deposit), (n + 1, transfer)]

/-- Its blocks. -/
def twoTxBlocks (n : ℕ) (deposit transfer : Transaction) : List Block :=
  (twoTxs n deposit transfer).map fun e => oneTxBlock e.1 e.2

section
variable {n : ℕ} {deposit transfer : Transaction}

theorem included_twoTxBlocks (htoken : transfer.tokenID = deposit.tokenID) (t : UInt64) :
    included t (twoTxBlocks n deposit transfer) =
      if deposit.tokenID = t then twoTxs n deposit transfer else [] := by
  rw [twoTxBlocks, included_oneTxBlocks]
  by_cases h : deposit.tokenID = t
  · simp [twoTxs, htoken, h]
  · simp [twoTxs, htoken, h]

theorem linked_twoTxs (hfirst : deposit.prevBlock = 0) (hblock : transfer.prevBlock.toNat = n)
    (howner : transfer.prevOwner = deposit.recipient) : Linked (twoTxs n deposit transfer) where
  increasing := by simp [twoTxs]
  first e he := by
    obtain rfl : (n, deposit) = e := Option.some.inj he
    exact hfirst
  next i e e' he he' := by
    rcases i with _ | i
    · obtain rfl : (n, deposit) = e := Option.some.inj he
      obtain rfl : (n + 1, transfer) = e' := Option.some.inj he'
      exact ⟨hblock, howner⟩
    · simp [twoTxs] at he'

theorem linked_twoTxBlocks (htoken : transfer.tokenID = deposit.tokenID)
    (hfirst : deposit.prevBlock = 0) (hblock : transfer.prevBlock.toNat = n)
    (howner : transfer.prevOwner = deposit.recipient) (t : UInt64) :
    Linked (included t (twoTxBlocks n deposit transfer)) := by
  rw [included_twoTxBlocks htoken]
  split_ifs
  · exact linked_twoTxs hfirst hblock howner
  · exact ⟨.nil, fun e he => (by cases he), fun i e e' he => (by cases he)⟩

end

/-- The roots of the two blocks are published under their numbers. -/
def PublishesTwo (E : Evm) (n : UInt64) (deposit transfer : Transaction) : Call → Prop
  | .submitBlock root blknum =>
      (root = blockRoot E deposit ∧ blknum = n) ∨ (root = blockRoot E transfer ∧ blknum = n + 1)
  | _ => True

instance (E : Evm) (n : UInt64) (deposit transfer : Transaction) :
    ∀ call, Decidable (PublishesTwo E n deposit transfer call)
  | .submitBlock _ _ => inferInstanceAs (Decidable (_ ∨ _))
  | .deposit _ | .depositExit _ | .startExit _ _ _ _ _ _ | .challenge _ _ _
  | .challengeBefore _ _ _ _ _ _ | .finalizeExits => inferInstanceAs (Decidable True)

theorem PublishesTwo.publishes {n : UInt64} {deposit transfer : Transaction} {call : Call}
    (hdeposit : TransactionRoot E.keccak (oneTxBlock n.toNat deposit) (blockRoot E deposit))
    (htransfer : TransactionRoot E.keccak (oneTxBlock (n.toNat + 1) transfer)
      (blockRoot E transfer))
    (hn : (n + 1).toNat = n.toNat + 1) (h : PublishesTwo E n deposit transfer call) :
    Publishes E (twoTxBlocks n.toNat deposit transfer) call := by
  rintro root blknum rfl
  rcases h with ⟨rfl, rfl⟩ | ⟨rfl, rfl⟩
  · exact ⟨_, List.mem_cons_self, rfl, hdeposit⟩
  · exact ⟨_, List.mem_cons_of_mem _ List.mem_cons_self, hn.symm, htransfer⟩

theorem transactionRoot_firstDeposit :
    TransactionRoot smallHash (oneTxBlock 1 firstDepositTx) (blockRoot smallEvm firstDepositTx) :=
  transactionRoot_oneTxBlock (E := smallEvm) rfl 1 (by decide +kernel)

theorem transactionRoot_transfer :
    TransactionRoot smallHash (oneTxBlock 2 transferTx) (blockRoot smallEvm transferTx) :=
  transactionRoot_oneTxBlock (E := smallEvm) rfl 2 (by decide +kernel)

/-- The blocks of the first token. -/
def transferBlocks : List Block := twoTxBlocks 1 firstDepositTx transferTx

theorem linked_transferBlocks (t : UInt64) : Linked (included t transferBlocks) := by
  have htoken : transferTx.tokenID = firstDepositTx.tokenID := rfl
  exact linked_twoTxBlocks htoken rfl rfl rfl t

/-- The strings that are hashed for them. -/
def transferStrings : Set Bytes := {x | x ∈ chainStrings smallHash [firstDepositTx, transferTx]}

theorem injOn_transferStrings : Set.InjOn smallHash transferStrings :=
  injOn_of_nodup (by decide +kernel)

/-- The receiver exits, and the depositor tries to cancel the exit with the two transactions. -/
theorem challengeBefore_reverts_transfer :
    ∃ s now log e, RunWith smallEvm
        (fun _ _ call => Publishes smallEvm transferBlocks call ∧ SkipsZero call) s now log ∧
      (s.exits firstToken).exitableTS ≠ 0 ∧
      s.challengeBefore smallEvm (callAt 110 depositor) firstDepositTx.bytes (Bytes.zeros 8) 1
        transferTx.bytes (Bytes.zeros 8) 2 = .error e := by
  obtain ⟨s, now, log, hrun, hpending⟩ := exists_runWith smallEvm
    (fun _ _ call => PublishesTwo smallEvm 1 firstDepositTx transferTx call) depositor
    (transferCalls ++ [(callAt 100 receiver, .startExit firstDepositTx.bytes (Bytes.zeros 8) 1
      transferTx.bytes (Bytes.zeros 8) 2)])
    (fun s _ => (s.exits firstToken).exitableTS ≠ 0) (by decide +kernel)
  have hrun' : RunWith smallEvm
      (fun _ _ call => Publishes smallEvm transferBlocks call ∧ SkipsZero call) s now log := by
    refine hrun.mono fun _ _ call hp => ⟨hp.publishes transactionRoot_firstDeposit
      transactionRoot_transfer (by decide), ?_⟩
    rintro root rfl
    rcases hp with ⟨-, h0⟩ | ⟨-, h0⟩
    · exact absurd h0 (by decide)
    · exact absurd h0 (by decide)
  have hinj : Set.InjOn smallEvm.keccak (chainInputs smallEvm.keccak transferBlocks ∪
      memberInputs smallEvm s.smt ((callAt 110 depositor).behind 0) firstDepositTx.bytes
        (Bytes.zeros 8) ∪
      memberInputs smallEvm s.smt ((callAt 110 depositor).behind 1) transferTx.bytes
        (Bytes.zeros 8)) := by
    refine injOn_transferStrings.mono (Set.union_subset (Set.union_subset ?_ ?_) ?_)
    · exact chainInputs_oneTxBlocks
    · exact memberInputs_bare rfl hrun.smt _ List.mem_cons_self
    · exact memberInputs_bare rfl hrun.smt _ (List.mem_cons_of_mem _ List.mem_cons_self)
  obtain ⟨e, he⟩ := challengeBefore_reverts hrun' linked_transferBlocks smallHash_ne_zero hinj
  exact ⟨s, now, log, e, hrun', hpending, he⟩

/-! ## `challenge` -/

/-- Only transaction roots are published, and the strings that are shown to `startExit` are among
those that are known not to collide. -/
structure KnownHashes (E : Evm) (blocks : List Block) (H : Set Bytes) (s : RootChain) (msg : Msg)
    (call : Call) : Prop where
  publishes : Publishes E blocks call
  shown : ∀ prevTxBytes prevProof prevBlk txBytes proof blk,
    call = .startExit prevTxBytes prevProof prevBlk txBytes proof blk →
      memberInputs E s.smt (msg.behind 0) txBytes proof ⊆ H

/-- Besides, a deposit of the token is exited by its depositor only: by no other address whose hash
ends in the same 64 bits. -/
structure HonestHashes (E : Evm) (blocks : List Block) (H : Set Bytes) (t : UInt64)
    (depositor : Address) (s : RootChain) (msg : Msg) (call : Call) : Prop
    extends KnownHashes E blocks H s msg call where
  deposit : ∀ d, call = .depositExit d →
    tokenHash E msg.sender d (s.depositBalance t) = t → msg.sender = depositor

/-- What a pending exit rests on: the deposit, or a transaction of the history. -/
inductive RestsOn (depositor : Address) (h : List (ℕ × Transaction)) (e : Exit) : Prop where
  | deposit (prevBlk : e.prevBlk = 0) (exitBlk : e.exitBlk = 1) (exitor : e.exitor = depositor)
  | start {tx : Transaction} (mem : (e.exitBlk.toNat, tx) ∈ h) (exitor : e.exitor = tx.recipient)
      (order : e.prevBlk < e.exitBlk)

/-- An exit rests on the last transaction: it was opened with it, or it is one of the deposit and
there is no later transaction. -/
def RestsOnLast (h : List (ℕ × Transaction)) (e : Exit) : Prop :=
  (e.prevBlk ≠ 0 ∧ ∃ last, h.getLast? = some last ∧ e.exitBlk.toNat = last.1) ∨
    (e.prevBlk = 0 ∧ e.exitBlk = 1 ∧ h.length ≤ 1)

section
variable {H : Set Bytes} {t : UInt64} {depositor : Address}
  (hzero : ∀ x, E.keccak x ≠ zeroHash) (hinj : Set.InjOn E.keccak H)
  (hchain : chainInputs E.keccak blocks ⊆ H)
include hzero hinj hchain

theorem RunWith.restsOn (h : RunWith E (HonestHashes E blocks H t depositor) s now log)
    (hpending : (s.exits t).exitableTS ≠ 0) :
    RestsOn depositor (Plasma.included t blocks) (s.exits t) := by
  refine h.pending (J := fun t' e => t' = t → RestsOn depositor (Plasma.included t blocks) e) ?_ t
    hpending rfl
  rintro s now log msg call t' d e hrun hp hgrounds rfl
  cases hgrounds with
  | deposit hcall hash => exact .deposit rfl rfl (hp.deposit d hcall hash)
  | start hcall token hok =>
    have hpub := hrun.published fun _ _ _ hp => hp.publishes
    obtain ⟨tx, htx, -, balance, hparsed⟩ := hpub.included hzero hinj hchain
      (hp.shown _ _ _ _ _ _ hcall) hok.parseExit hok.memberExit
    rw [token] at htx
    refine .start htx ?_ hok.order
    change msg.sender = tx.recipient
    rw [← hok.recipient, hparsed]
    rfl

end

section
variable {t : UInt64}
  (hpub : Published E blocks s) (hlinked : Linked (included t blocks))
  (hnumbers : blocks.Pairwise fun b b' => b.number < b'.number)
  (hpublished : ∀ e ∈ included t blocks, ∃ blk : UInt64, blk.toNat = e.1 ∧
    s.childChain blk ≠ zeroHash)
  (hvalid : ∀ e ∈ included t blocks, ∀ behind,
    (∃ p, parseTx behind e.2.bytes = .ok p) ∧ verifyTx behind e.2.bytes E = .ok true)
  (ht : t ≠ 0) (hpending : (s.exits t).exitableTS ≠ 0)
include hpub hlinked hnumbers hpublished hvalid ht hpending

/-- A transaction of the history that meets the condition on the blocks cancels the exit. -/
theorem challenge_included (msg : Msg) {e : ℕ × Transaction} (he : e ∈ included t blocks)
    (hcond : ∀ blk balance, blk.toNat = e.1 →
      RootChain.challengeCond (parsed e.2 balance) (s.exits t) blk = .ok ()) :
    ∃ blk proof s', blk.toNat = e.1 ∧ s.challenge E msg e.2.bytes proof blk = .ok s' ∧
      (s'.exits t).exitableTS = 0 := by
  obtain ⟨blk, hblk, hne⟩ := hpublished e he
  obtain ⟨b, hb, hnumber, hroot⟩ := hpub blk hne
  obtain ⟨b', hb', hmap⟩ := List.mem_flatMap.mp he
  obtain ⟨tx, htx, rfl⟩ := List.mem_map.mp hmap
  -- the published block is the one with the transaction, which is its only one of the token
  obtain rfl : b' = b :=
    ListRel.eq_of_increasing hnumbers hb' hb (hblk.symm.trans hnumber.symm)
  have hlast : (forToken t b'.transactions).getLast? = some tx := by
    obtain ⟨tx', htx'⟩ := Option.ne_none_iff_exists'.mp
      (mt List.getLast?_eq_none_iff.mp (List.ne_nil_of_mem htx))
    have he' : (b'.number, tx') ∈ included t blocks := List.mem_flatMap.mpr
      ⟨b', hb', List.mem_map.mpr ⟨tx', List.mem_of_getLast? htx', rfl⟩⟩
    rw [htx', (Prod.mk.inj (ListRel.eq_of_increasing hlinked.increasing he' he rfl)).2]
  have htoken : tx.tokenID = t := by simpa using (List.mem_filter.mp htx).2
  obtain ⟨⟨p, hparse⟩, hverify⟩ := hvalid _ he (msg.behind 0)
  obtain ⟨balance, rfl⟩ := eq_parsed_of_parseTx hparse
  obtain ⟨proof, hproof⟩ := exists_proof hroot hlast s.smt
  have htok : (parsed tx balance).tokenID = t := htoken
  refine ⟨blk, proof, _, hblk, challenge_eq_ok.mpr ⟨parsed tx balance, ⟨hparse, ?_, ?_, ?_,
    (hvalid _ he (msg.behind 1)).2, ?_⟩, rfl⟩, ?_⟩
  · rw [htok]
    exact UInt64.pos_iff_ne_zero.mpr ht
  · rw [htok]
    exact Nat.pos_of_ne_zero hpending
  · rw [htok]
    exact hcond blk balance hblk
  · rw [htok]
    exact hproof
  · change (Function.update s.exits (parsed tx balance).tokenID noExit t).exitableTS = 0
    rw [htok, Function.update_self]
    rfl

end

/-- Against blocks of which the token's are published, an exit of a token with a linked history that
does not rest on its last transaction can be challenged with one of its transactions, by anybody. -/
theorem exit_challengeable {H : Set Bytes} {t : UInt64} {first : ℕ × Transaction}
    (hrun : RunWith E (HonestHashes E blocks H t first.2.recipient) s now log)
    (hinj : Set.InjOn E.keccak H) (hchain : chainInputs E.keccak blocks ⊆ H)
    (hzero : ∀ x, E.keccak x ≠ zeroHash)
    (hnumbers : blocks.Pairwise fun b b' => b.number < b'.number)
    (hfirst : (included t blocks)[0]? = some first) (hlinked : Linked (included t blocks))
    (hpublished : ∀ e ∈ included t blocks, ∃ blk : UInt64, blk.toNat = e.1 ∧
      s.childChain blk ≠ zeroHash)
    (hvalid : ∀ e ∈ included t blocks, ∀ behind,
      (∃ p, parseTx behind e.2.bytes = .ok p) ∧ verifyTx behind e.2.bytes E = .ok true)
    (ht : t ≠ 0) (hpending : (s.exits t).exitableTS ≠ 0)
    (hlast : ¬ RestsOnLast (included t blocks) (s.exits t)) (msg : Msg) :
    ∃ e ∈ included t blocks, ∃ blk proof s', blk.toNat = e.1 ∧
      s.challenge E msg e.2.bytes proof blk = .ok s' ∧ (s'.exits t).exitableTS = 0 := by
  have hpub := hrun.published fun _ _ _ hp => hp.publishes
  have hchallenge := fun e he => challenge_included hpub hlinked hnumbers hpublished hvalid ht
    hpending msg (e := e) he
  have hmem : ∀ {i e}, (included t blocks)[i]? = some e → e ∈ included t blocks :=
    fun h => List.mem_iff_getElem?.mpr ⟨_, h⟩
  cases hrun.restsOn hzero hinj hchain hpending with
  | deposit hprev hexit hexitor =>
    by_cases hzeroth : first.1 = 0
    · -- the deposit itself, in a block before the exit
      refine ⟨first, hmem hfirst, hchallenge first (hmem hfirst) fun blk balance hblk => ?_⟩
      rw [challengeCond_eq_ok, hprev, hexit]
      refine ⟨fun hlt => ?_, fun _ hlt => ?_⟩
      · rw [UInt64.lt_iff_toNat_lt] at hlt
        omega
      · rw [UInt64.lt_iff_toNat_lt] at hlt
        omega
    · -- the transaction after the deposit
      obtain ⟨e, he⟩ : ∃ e, (included t blocks)[1]? = some e := by
        have hlen : 1 < (included t blocks).length := by
          by_contra hle
          exact hlast (.inr ⟨hprev, hexit, by omega⟩)
        exact ⟨_, List.getElem?_eq_getElem hlen⟩
      obtain ⟨hblock, howner⟩ := hlinked.next 0 first e hfirst he
      have hlater := number_lt_of_lt hlinked hfirst he Nat.zero_lt_one
      refine ⟨e, hmem he, hchallenge e (hmem he) fun blk balance hblk => ?_⟩
      rw [challengeCond_eq_ok, hprev, hexit, hexitor, if_pos rfl]
      refine ⟨fun _ => ⟨howner, fun h0 => ?_⟩, fun hnot => absurd ?_ hnot⟩
      · change e.2.prevBlock = 0 at h0
        rw [h0] at hblock
        exact hzeroth hblock.symm
      · rw [UInt64.lt_iff_toNat_lt]
        change 1 < blk.toNat
        omega
  | @start tx hexit hexitor horder =>
    obtain ⟨j, hj⟩ := List.mem_iff_getElem?.mp hexit
    rcases hnext : (included t blocks)[j + 1]? with _ | e
    · -- the last transaction, which cancels its own exit
      refine ⟨_, hexit, hchallenge _ hexit fun blk balance hblk => ?_⟩
      obtain rfl : blk = (s.exits t).exitBlk := UInt64.toNat_inj.mp hblk
      rw [challengeCond_eq_ok]
      exact ⟨fun hlt => absurd hlt (UInt64.lt_irrefl _), fun hlt _ hlt' => absurd hlt' hlt⟩
    · obtain ⟨hblock, howner⟩ := hlinked.next j _ e hj hnext
      have hlater := number_lt_of_lt hlinked hj hnext (Nat.lt_succ_self j)
      refine ⟨e, hmem hnext, hchallenge e (hmem hnext) fun blk balance hblk => ?_⟩
      rw [challengeCond_eq_ok, hexitor]
      have hnamed : e.2.prevBlock = (s.exits t).exitBlk := UInt64.toNat_inj.mp hblock
      refine ⟨fun _ => ⟨howner, ?_⟩, fun hnot => absurd ?_ hnot⟩
      · change if _ then e.2.prevBlock ≠ 0 else e.2.prevBlock = _
        rw [hnamed]
        split_ifs with hprev
        · rw [hprev] at horder
          exact (UInt64.ne_of_lt horder).symm
        · rfl
      · rw [UInt64.lt_iff_toNat_lt, hblk]
        exact hlater

/-- No exit is started with transactions, and deposits are exited by some senders only. -/
def ExitsDeposit (senders : List Address) (msg : Msg) : Call → Prop
  | .startExit _ _ _ _ _ _ => False
  | .depositExit _ => msg.sender ∈ senders
  | _ => True

instance (senders : List Address) (msg : Msg) : ∀ call, Decidable (ExitsDeposit senders msg call)
  | .startExit _ _ _ _ _ _ => inferInstanceAs (Decidable False)
  | .depositExit _ => inferInstanceAs (Decidable (_ ∈ _))
  | .submitBlock _ _ | .deposit _ | .challenge _ _ _ | .challengeBefore _ _ _ _ _ _
  | .finalizeExits => inferInstanceAs (Decidable True)

theorem included_transferBlocks :
    included firstToken transferBlocks = twoTxs 1 firstDepositTx transferTx := by
  have htoken : transferTx.tokenID = firstDepositTx.tokenID := rfl
  exact (included_twoTxBlocks htoken firstToken).trans (if_pos rfl)

theorem valid_transferBlocks (e : ℕ × Transaction) (he : e ∈ included firstToken transferBlocks)
    (behind : Memory) : (∃ p, parseTx behind e.2.bytes = .ok p) ∧
      verifyTx behind e.2.bytes smallEvm = .ok true := by
  rw [included_transferBlocks] at he
  rw [parseTx_bytes, verifyTx_bytes]
  rcases List.mem_cons.mp he with rfl | he
  · exact ⟨⟨_, rfl⟩, by decide +kernel⟩
  · obtain rfl := List.mem_singleton.mp he
    exact ⟨⟨_, rfl⟩, by decide +kernel⟩

/-- The depositor exits the deposit after giving the token away. -/
theorem exit_challengeable_transfer :
    ∃ s now log, RunWith smallEvm
        (HonestHashes smallEvm transferBlocks transferStrings firstToken depositor) s now log ∧
      (s.exits firstToken).exitableTS ≠ 0 ∧
      ∃ e ∈ included firstToken transferBlocks, ∃ blk proof s', blk.toNat = e.1 ∧
        s.challenge smallEvm (callAt 110 receiver) e.2.bytes proof blk = .ok s' ∧
        (s'.exits firstToken).exitableTS = 0 := by
  obtain ⟨s, now, log, hrun, hpending, hprev, h1, h2⟩ := exists_runWith smallEvm
    (fun _ msg call => PublishesTwo smallEvm 1 firstDepositTx transferTx call ∧
      ExitsDeposit [depositor] msg call) depositor
    (transferCalls ++ [(callAt 100 depositor, .depositExit 0)])
    (fun s _ => (s.exits firstToken).exitableTS ≠ 0 ∧ (s.exits firstToken).prevBlk = 0 ∧
      s.childChain 1 ≠ zeroHash ∧ s.childChain 2 ≠ zeroHash) (by decide +kernel)
  have hrun' : RunWith smallEvm
      (HonestHashes smallEvm transferBlocks transferStrings firstToken depositor) s now log := by
    refine hrun.mono fun _ msg call hp => ⟨⟨hp.1.publishes transactionRoot_firstDeposit
      transactionRoot_transfer (by decide), ?_⟩, ?_⟩
    · rintro _ _ _ _ _ _ rfl
      exact hp.2.elim
    · rintro d rfl -
      exact List.mem_singleton.mp hp.2
  have hpublished : ∀ e ∈ included firstToken transferBlocks, ∃ blk : UInt64, blk.toNat = e.1 ∧
      s.childChain blk ≠ zeroHash := by
    intro e he
    rw [included_transferBlocks] at he
    rcases List.mem_cons.mp he with rfl | he
    · exact ⟨1, rfl, h1⟩
    · obtain rfl := List.mem_singleton.mp he
      exact ⟨2, rfl, h2⟩
  have hlast : ¬ RestsOnLast (included firstToken transferBlocks) (s.exits firstToken) := by
    rw [included_transferBlocks]
    rintro (⟨hne, -⟩ | ⟨-, -, hlen⟩)
    · exact hne hprev
    · exact absurd hlen (by decide)
  have hfirst : (included firstToken transferBlocks)[0]? = some (1, firstDepositTx) := by
    rw [included_transferBlocks]
    rfl
  have hnumbers : transferBlocks.Pairwise fun b b' => b.number < b'.number := by
    simp [transferBlocks, twoTxBlocks, twoTxs, oneTxBlock]
  exact ⟨s, now, log, hrun', hpending, exit_challengeable hrun' injOn_transferStrings
    chainInputs_oneTxBlocks smallHash_ne_zero hnumbers hfirst (linked_transferBlocks firstToken)
    hpublished valid_transferBlocks (by decide +kernel) hpending hlast (callAt 110 receiver)⟩

/-- A hash whose last 64 bits are always the same, and whose others differ. -/
def collidingHash (b : Bytes) : Hash :=
  if b = [] then emptyHash
  else ⟨Bytes.zeros 16 ++ Bytes.toBE 8 (Bytes.ofBE (1 :: b) % (2 ^ 61 - 1)) ++ Bytes.toBE 8 7,
    by simp⟩

theorem collidingHash_ne_zero (x : Bytes) : collidingHash x ≠ zeroHash := by
  rw [collidingHash]
  split_ifs
  · decide
  · intro h
    have hdrop := congrArg (fun y : Hash => y.1.drop 24) h
    rw [List.drop_left' (by simp)] at hdrop
    exact absurd hdrop (by decide)

def collidingEvm : Evm := { smallEvm with keccak := collidingHash }

/-- An address that has nothing to do with the token. -/
def outsider : Address := ⟨Bytes.zeros 19 ++ [3], rfl⟩

/-- The deposit of the token 7 on the child chain. -/
def collidingDepositTx : Transaction :=
  ⟨7, 5, 0, 0, depositor, depositor, 0, 0, Plasma.emptySlice, 5⟩

/-- It is given away. -/
def collidingTransferTx : Transaction :=
  ⟨7, 5, 0, 2, depositor, receiver, 0, 0, signedBy depositor, 5⟩

def collidingBlocks : List Block := twoTxBlocks 2 collidingDepositTx collidingTransferTx

/-- What is hashed for the blocks, and for the token by the two addresses. -/
def collidingStrings : List Bytes :=
  [depositor, outsider].map (fun a => a.1 ++ uInt64ToByte 0 ++ uInt64ToByte 5) ++
    chainStrings collidingHash [collidingDepositTx, collidingTransferTx]

theorem included_collidingBlocks :
    included 7 collidingBlocks = twoTxs 2 collidingDepositTx collidingTransferTx := by
  have htoken : collidingTransferTx.tokenID = collidingDepositTx.tokenID := rfl
  exact (included_twoTxBlocks htoken 7).trans (if_pos rfl)

theorem valid_collidingBlocks (e : ℕ × Transaction) (he : e ∈ included 7 collidingBlocks)
    (behind : Memory) : (∃ p, parseTx behind e.2.bytes = .ok p) ∧
      verifyTx behind e.2.bytes collidingEvm = .ok true := by
  rw [included_collidingBlocks] at he
  rw [parseTx_bytes, verifyTx_bytes]
  rcases List.mem_cons.mp he with rfl | he
  · exact ⟨⟨_, rfl⟩, by decide +kernel⟩
  · obtain rfl := List.mem_singleton.mp he
    exact ⟨⟨_, rfl⟩, by decide +kernel⟩

/-- The outsider exits the deposit. It is not the recipient of the deposit, nor does it give the
token away. -/
theorem exit_not_challengeable :
    ∃ s now log, RunWith collidingEvm
        (KnownHashes collidingEvm collidingBlocks {x | x ∈ collidingStrings}) s now log ∧
      Set.InjOn collidingHash {x | x ∈ collidingStrings} ∧
      chainInputs collidingHash collidingBlocks ⊆ {x | x ∈ collidingStrings} ∧
      (∀ x, collidingHash x ≠ zeroHash) ∧
      collidingBlocks.Pairwise (fun b b' => b.number < b'.number) ∧
      Linked (included 7 collidingBlocks) ∧
      (∀ e ∈ included 7 collidingBlocks, ∃ blk : UInt64, blk.toNat = e.1 ∧
        s.childChain blk ≠ zeroHash) ∧
      (∀ e ∈ included 7 collidingBlocks, ∀ behind,
        (∃ p, parseTx behind e.2.bytes = .ok p) ∧
          verifyTx behind e.2.bytes collidingEvm = .ok true) ∧
      .deposit collidingDepositTx.recipient 0 5 7 ∈ log ∧
      (s.exits 7).exitableTS ≠ 0 ∧ ¬ RestsOnLast (included 7 collidingBlocks) (s.exits 7) ∧
      ∀ e ∈ included 7 collidingBlocks, ∀ msg proof blk, blk.toNat = e.1 →
        ∀ s', s.challenge collidingEvm msg e.2.bytes proof blk ≠ .ok s' := by
  obtain ⟨s, now, log, hrun, hdeposit, hpending, hprev, hexit, hexitor, h2, h3⟩ :=
    exists_runWith collidingEvm
      (fun _ msg call => PublishesTwo collidingEvm 2 collidingDepositTx collidingTransferTx call ∧
        ExitsDeposit [outsider] msg call) depositor
      [(callAt 90 depositor, .deposit 5),
        (callAt 90 depositor, .submitBlock (blockRoot collidingEvm collidingDepositTx) 2),
        (callAt 90 depositor, .submitBlock (blockRoot collidingEvm collidingTransferTx) 3),
        (callAt 100 outsider, .depositExit 0)]
      (fun s log => .deposit depositor 0 5 7 ∈ log ∧ (s.exits 7).exitableTS ≠ 0 ∧
        (s.exits 7).prevBlk = 0 ∧ (s.exits 7).exitBlk = 1 ∧ (s.exits 7).exitor = outsider ∧
        s.childChain 2 ≠ zeroHash ∧ s.childChain 3 ≠ zeroHash) (by decide +kernel)
  have hrun' : RunWith collidingEvm
      (KnownHashes collidingEvm collidingBlocks {x | x ∈ collidingStrings}) s now log := by
    refine hrun.mono fun _ msg call hp => ⟨hp.1.publishes
      (transactionRoot_oneTxBlock (E := collidingEvm) rfl 2 (by decide +kernel))
      (transactionRoot_oneTxBlock (E := collidingEvm) rfl 3 (by decide +kernel)) (by decide), ?_⟩
    rintro _ _ _ _ _ _ rfl
    exact hp.2.elim
  have hinj : Set.InjOn collidingHash {x | x ∈ collidingStrings} :=
    injOn_of_nodup (by decide +kernel)
  have hchain : chainInputs collidingHash collidingBlocks ⊆ {x | x ∈ collidingStrings} :=
    fun x hx => List.mem_append_right _ (chainInputs_oneTxBlocks hx)
  refine ⟨s, now, log, hrun', hinj, hchain, collidingHash_ne_zero, ?_, ?_, ?_,
    valid_collidingBlocks, hdeposit, hpending, ?_, ?_⟩
  · simp [collidingBlocks, twoTxBlocks, twoTxs, oneTxBlock]
  · rw [included_collidingBlocks]
    exact linked_twoTxs rfl rfl rfl
  · intro e he
    rw [included_collidingBlocks] at he
    rcases List.mem_cons.mp he with rfl | he
    · exact ⟨2, rfl, h2⟩
    · obtain rfl := List.mem_singleton.mp he
      exact ⟨3, rfl, h3⟩
  · rw [included_collidingBlocks]
    rintro (⟨hne, -⟩ | ⟨-, -, hlen⟩)
    · exact hne hprev
    · exact absurd hlen (by decide)
  · -- both are after the block 1 that the exit is said to rest on, and given by the depositor
    intro e he msg proof blk hblk s' hcall
    obtain ⟨p, hok, -⟩ := challenge_eq_ok.mp hcall
    obtain ⟨balance, rfl⟩ := eq_parsed_of_parseTx hok.parse
    have hcond := challengeCond_eq_ok.mp hok.cond
    have hafter : e.2.tokenID = 7 ∧ e.2.prevOwner = depositor ∧ 1 < e.1 := by
      rw [included_collidingBlocks] at he
      rcases List.mem_cons.mp he with rfl | he
      · exact ⟨rfl, rfl, by decide⟩
      · obtain rfl := List.mem_singleton.mp he
        exact ⟨rfl, rfl, by decide⟩
    have hexit' : (s.exits (parsed e.2 balance).tokenID).exitBlk < blk := by
      change (s.exits e.2.tokenID).exitBlk < blk
      rw [hafter.1, hexit, UInt64.lt_iff_toNat_lt, hblk]
      exact hafter.2.2
    have howner : e.2.prevOwner = (s.exits e.2.tokenID).exitor := (hcond.1 hexit').1
    rw [hafter.1, hafter.2.1, hexitor] at howner
    exact absurd howner (by decide)

end GoPlasma.Contract
