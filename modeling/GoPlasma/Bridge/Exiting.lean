import GoPlasma.Bridge.Serving

/-!
# Exits with the answers of the node

The receiver of a token can exit with what `GetPlasmaTransactionProof` answers for the last
transaction and the one before (`recipient_exits`), and the answer for a later transaction cancels
the exit of somebody who has given the token away (`spent_exit_cancelled`). The blocks of these
transactions have to be published, and the transactions have to be ones that the contract can read:
the node lets amounts and signatures into its blocks that the contract refuses.
-/

namespace GoPlasma.Bridge

open Contract (Covered Evm Msg PlasmaTx Recoverable RootChain SameRecovery StartExitOk callAt parsed
  parseTx verifyTx)
open Plasma (Crypto SealedBlock Transaction included smallDeposit)

variable {C : Crypto} {E : Evm} {s s' : System}

/-! ## The contract -/

/-- `startExit` succeeds when its checks do and there is no exit of the token yet. -/
theorem startExit_of_checks {c : RootChain} {msg : Msg}
    {prevTxBytes prevProof txBytes proof : Bytes} {prevBlk blk : UInt64} {exitTx prevTx : PlasmaTx}
    (h : StartExitOk E msg c prevTxBytes prevProof prevBlk txBytes proof blk exitTx prevTx)
    (hfree : (c.exits exitTx.tokenID).exitableTS = 0) (hq : c.exitsQueue.WF) :
    ∃ c', c.startExit E msg prevTxBytes prevProof prevBlk txBytes proof blk = .ok c' ∧
      c'.exits exitTx.tokenID =
        ⟨prevBlk, blk, msg.sender, exitTx.balance, msg.timestamp.toNat + 60, 0⟩ := by
  obtain ⟨q, hinsert, -⟩ :=
    hq.insert (RootChain.priority (msg.timestamp.toNat + 60) exitTx.depositIndex)
  refine ⟨{ c with
      exitsQueue := q
      exits := Function.update c.exits exitTx.tokenID
        ⟨prevBlk, blk, msg.sender, exitTx.balance, msg.timestamp.toNat + 60, 0⟩ },
    ?_, Function.update_self ..⟩
  -- the checks, in the order of the function
  unfold RootChain.startExit
  refine Contract.bind_eq_ok.mpr ⟨exitTx, h.parseExit, ?_⟩
  refine Contract.require_bind_eq_ok.mpr ⟨⟨h.token, hfree⟩, ?_⟩
  refine Contract.bind_eq_ok.mpr ⟨prevTx, h.parsePrev, ?_⟩
  refine Contract.requireMsg_bind_eq_ok.mpr ⟨h.recipient, ?_⟩
  refine Contract.requireMsg_bind_eq_ok.mpr ⟨h.owner, ?_⟩
  refine Contract.requireMsg_bind_eq_ok.mpr ⟨h.sameToken, ?_⟩
  refine Contract.checked_bind_eq_ok.mpr ⟨h.verifyExit, ?_⟩
  refine Contract.checked_bind_eq_ok.mpr ⟨h.verifyPrev, ?_⟩
  refine Contract.requireMsg_bind_eq_ok.mpr ⟨h.order, ?_⟩
  refine Contract.requireMsg_bind_eq_ok.mpr ⟨h.link, ?_⟩
  refine Contract.checked_bind_eq_ok.mpr ⟨h.memberPrev, ?_⟩
  refine Contract.checked_bind_eq_ok.mpr ⟨h.memberExit, ?_⟩
  refine Contract.requireMsg_bind_eq_ok.mpr ⟨hfree, ?_⟩
  exact Contract.bind_eq_ok.mpr ⟨q, hinsert, rfl⟩

/-! ## The transactions of a token -/

/-- The contract can read the transaction, and can recover its signer. -/
def Acceptable (tx : Transaction) : Prop := Covered tx ∧ (tx.prevBlock = 0 ∨ Recoverable tx)

instance (tx : Transaction) : Decidable (Acceptable tx) := inferInstanceAs (Decidable (_ ∧ _))

/-- A transaction of the token in a block that is published, as the contract sees it. -/
structure Shows (C : Crypto) (E : Evm) (s : System) (t : UInt64) (n : ℕ) (tx : Transaction)
    (p : Smt.Proof) : Prop where
  served : s.backend.getPlasmaTransactionProof C (tx.hash C) =
    .ok (.ok (some ⟨t, tx.bytes, p, n⟩))
  token : tx.tokenID = t
  nonzero : t ≠ 0
  number : (UInt64.ofNat n).toNat = n
  parse : ∀ behind, ∃ balance, parseTx behind tx.bytes = .ok (parsed tx balance) ∧
    balance.toNat = tx.denomination.toNat - tx.allowance.toNat - tx.spent.toNat
  verify : ∀ behind, verifyTx behind tx.bytes E = .ok true
  member : Contract.checkMembership E s.contract.smt (E.keccak tx.bytes)
    (s.contract.childChain (UInt64.ofNat n)) t p.bytes = .ok true

/-- An entry of the history of a token is in a block of the node. -/
theorem block_of_included {b : Plasma.Backend} (hal : Aligned C b) {t : UInt64} {n : ℕ}
    {tx : Transaction} (h : (n, tx) ∈ included t b.node.chain) :
    n ≠ 0 ∧ tx.tokenID = t ∧ ∃ x, b.chain[n]? = some x ∧ tx ∈ x.block.transactions := by
  have hpos := ((hal.chain.history t).bounds _ h).1
  obtain ⟨y, hy, hmap⟩ := List.mem_flatMap.mp h
  obtain ⟨tx', htx', heq⟩ := List.mem_map.mp hmap
  obtain ⟨rfl, rfl⟩ := Prod.mk.inj heq
  obtain ⟨htx', htoken⟩ := List.mem_filter.mp htx'
  obtain ⟨i, hi⟩ := List.mem_iff_getElem?.mp hy
  have hnumber := hal.chain.number_eq hi
  rw [hal.blocks, List.getElem?_map] at hi
  obtain ⟨x, hx, rfl⟩ := Option.map_eq_some_iff.mp hi
  rw [hnumber] at hpos ⊢
  exact ⟨Nat.pos_iff_ne_zero.mp hpos, of_decide_eq_true htoken, x, hx, htx'⟩

/-- Every published transaction can be shown to the contract. -/
theorem Serves.shows (h : Serves C E s) (hE : SameRecovery C E)
    (hlen : s.backend.chain.length ≤ 2 ^ 64) {t : UInt64} {n : ℕ} {tx : Transaction}
    (htx : (n, tx) ∈ included t s.backend.node.chain) (hacc : Acceptable tx)
    (hpub : s.contract.childChain (UInt64.ofNat n) ≠ zeroHash) : ∃ p, Shows C E s t n tx p := by
  have hal := aligned_of_run h.run
  obtain ⟨hn, rfl, x, hx, hmem⟩ := block_of_included hal htx
  obtain ⟨p, hserved, hmember⟩ := h.accepted hn hx hmem hpub
  have hpooled : Plasma.Pooled C tx := by
    refine hal.checked x.block ?_ tx hmem
    rw [hal.blocks]
    exact List.mem_map_of_mem (List.mem_of_getElem? hx)
  have hexit := fun behind => (Contract.exitable_of_pooled hE hpooled behind).mpr
    ⟨hacc.1, hacc.2.imp_right .inl⟩
  refine ⟨p, hserved, rfl, ?_, ?_, fun behind => ?_, fun behind => (hexit behind).2, hmember⟩
  · exact h.run.stored.bodies x (List.mem_of_getElem? hx) tx hmem
  · exact UInt64.toNat_ofNat_of_lt' (lt_of_lt_of_le (List.getElem?_eq_some_iff.mp hx).1 hlen)
  · obtain ⟨q, hq⟩ := (hexit behind).1
    obtain ⟨balance, rfl, hbalance⟩ := Contract.balance_of_parseTx hq
    exact ⟨balance, hq, hbalance⟩

/-- Neighbours in the history of a token. -/
theorem Serves.linked (h : Serves C E s) {t : UInt64} {i m n : ℕ} {prev tx : Transaction}
    (hprev : (included t s.backend.node.chain)[i]? = some (m, prev))
    (htx : (included t s.backend.node.chain)[i + 1]? = some (n, tx)) :
    m < n ∧ tx.prevBlock.toNat = m ∧ tx.prevOwner = prev.recipient := by
  have hlinked := ((aligned_of_run h.run).chain.history t).linked
  obtain ⟨hblock, howner⟩ := hlinked.next i _ _ hprev htx
  have hinc := hlinked.increasing
  obtain ⟨hi, hprev⟩ := List.getElem?_eq_some_iff.mp hprev
  obtain ⟨hi', htx⟩ := List.getElem?_eq_some_iff.mp htx
  have hlt := List.pairwise_iff_getElem.mp hinc i (i + 1) hi hi' (Nat.lt_succ_self i)
  rw [hprev, htx] at hlt
  exact ⟨hlt, hblock, howner⟩

/-! ## Exits -/

/-- In every run in which no store operation fails and no token has the number 0, the receiver of a
token can exit it with the two answers of the node, if there is no exit of the token, the two blocks
are published, and the contract can read the two transactions. -/
theorem recipient_exits {s₀ : System} {t : UInt64} {i m n : ℕ} {prev tx : Transaction}
    (hstart : Started C E s₀)
    (h : Steps C E (fun _ op => Honest C op ∧ Completing C op) s₀ s)
    (hlog : ∀ a i d t, .deposit a i d t ∈ s.log → t ≠ 0)
    (hlen : s.backend.chain.length ≤ 2 ^ 64) (hE : SameRecovery C E)
    (hempty : E.keccak [] = Contract.emptyHash)
    (hcf : Smt.CollisionFree C.keccak (allHashed C s.backend))
    (hprev : (included t s.backend.node.chain)[i]? = some (m, prev))
    (htx : (included t s.backend.node.chain)[i + 1]? = some (n, tx))
    (hpubPrev : s.contract.childChain (UInt64.ofNat m) ≠ zeroHash)
    (hpub : s.contract.childChain (UInt64.ofNat n) ≠ zeroHash)
    (haccPrev : Acceptable prev) (hacc : Acceptable tx)
    (hfree : (s.contract.exits t).exitableTS = 0) (msg : Msg)
    (hsender : msg.sender = tx.recipient) :
    ∃ p q c balance,
      s.backend.getPlasmaTransactionProof C (prev.hash C) =
        .ok (.ok (some ⟨t, prev.bytes, p, m⟩)) ∧
      s.backend.getPlasmaTransactionProof C (tx.hash C) = .ok (.ok (some ⟨t, tx.bytes, q, n⟩)) ∧
      s.contract.startExit E msg prev.bytes p.bytes (UInt64.ofNat m) tx.bytes q.bytes
        (UInt64.ofNat n) = .ok c ∧
      c.exits t = ⟨UInt64.ofNat m, UInt64.ofNat n, tx.recipient, balance,
        msg.timestamp.toNat + 60, 0⟩ ∧
      balance.toNat = tx.denomination.toNat - tx.allowance.toNat - tx.spent.toNat := by
  have hserves := h.serves hstart hlog hlen hE.keccak hempty hcf
  have hmem : ∀ {i e}, (included t s.backend.node.chain)[i]? = some e →
      e ∈ included t s.backend.node.chain := fun h => List.mem_of_getElem? h
  obtain ⟨p, hp⟩ := hserves.shows hE hlen (hmem hprev) haccPrev hpubPrev
  obtain ⟨q, hq⟩ := hserves.shows hE hlen (hmem htx) hacc hpub
  obtain ⟨horder, hblock, howner⟩ := hserves.linked hprev htx
  obtain ⟨balance, hparse, hbalance⟩ := hq.parse (msg.behind 0)
  obtain ⟨prevBalance, hparsePrev, -⟩ := hp.parse (msg.behind 1)
  have htoken : (parsed tx balance).tokenID = t := hq.token
  have hchecks : StartExitOk E msg s.contract prev.bytes p.bytes (UInt64.ofNat m) tx.bytes q.bytes
      (UInt64.ofNat n) (parsed tx balance) (parsed prev prevBalance) := by
    refine ⟨hparse, hparsePrev, ?_, hsender.symm, howner, hq.token.trans hp.token.symm,
      hq.verify _, hp.verify _, ?_, ?_, ?_, ?_⟩
    · rw [htoken]
      exact UInt64.pos_iff_ne_zero.mpr hq.nonzero
    · rw [UInt64.lt_iff_toNat_lt, hp.number, hq.number]
      exact horder
    · refine UInt64.toNat_inj.mp ?_
      rw [hp.number]
      exact hblock.symm
    · rw [htoken]
      exact hp.member
    · rw [htoken]
      exact hq.member
  obtain ⟨c, hcall, hexits⟩ := startExit_of_checks hchecks (by rw [htoken]; exact hfree)
    hserves.ok.run.queue_wf
  rw [htoken, hsender] at hexits
  exact ⟨p, q, c, balance, hp.served, hq.served, hcall, hexits, hbalance⟩

/-! ### A deposit and a transfer -/

theorem sameRecovery_operatorEvm : SameRecovery operatorCrypto operatorEvm where
  keccak := rfl
  checked hash sig pub h := Contract.sameRecovery_byteEvm.checked hash sig pub h
  same hash sig pub h _ := by
    have hpub : pub = [] := by
      simp only [operatorCrypto, Contract.checkedCrypto] at h
      split_ifs at h
      exact (List.cons.inj (Except.ok.inj h)).2.symm
    rw [hpub]
    rfl

/-- The history of the token of the deposit. -/
def History (s : System) : Prop :=
  included smallDeposit.tokenID s.backend.node.chain =
    [(1, smallDeposit), (2, otherTransfer)]

instance (s : System) : Decidable (History s) := inferInstanceAs (Decidable (_ = _))

/-- The receiver of the transfer exits. -/
theorem recipient_exits_transfer : ∃ s₀ s p q c balance,
    Started operatorCrypto operatorEvm s₀ ∧
    Steps operatorCrypto operatorEvm
      (fun _ op => Honest operatorCrypto op ∧ Completing operatorCrypto op) s₀ s ∧
    s.contract.startExit operatorEvm (callAt 40 Plasma.oneAddress)
      smallDeposit.bytes (Smt.Proof.bytes p) 1 otherTransfer.bytes (Smt.Proof.bytes q) 2 =
        .ok c ∧
    c.exits smallDeposit.tokenID = ⟨1, 2, Plasma.oneAddress, balance, 100, 0⟩ ∧
    balance.toNat = 5 := by
  obtain ⟨s₀, s, hstart, hrun, hs, hhistory, hfree⟩ := exists_steps operatorCrypto operatorEvm
    (fun _ op => Honest operatorCrypto op ∧ Completing operatorCrypto op) depositAndTransfer
    (fun s => Computed s ∧ History s ∧
      (s.contract.exits smallDeposit.tokenID).exitableTS = 0)
    (fun _ => by decide +kernel) (by decide +kernel)
  obtain ⟨p, q, c, balance, -, -, hcall, hexits, hbalance⟩ := recipient_exits hstart hrun
    (ne_zero_of_noZeroToken hs.2.2.1) (by rw [hs.length]; norm_num) sameRecovery_operatorEvm rfl
    hs.collisionFree (i := 0) (by rw [hhistory]; rfl) (by rw [hhistory]; rfl) hs.2.2.2.2.1
    hs.2.2.2.2.2 (by decide) (by decide) hfree (callAt 40 Plasma.oneAddress) rfl
  exact ⟨s₀, s, p, q, c, balance, hstart, hrun, hcall, hexits, hbalance⟩

/-! ## Challenges -/

/-- In every run in which no store operation fails and no token has the number 0, the exit of one
who has given the token away in the next transaction is cancelled by the answer of the node for this
transaction. The exit names the block of the transaction that it was opened with, or it is one of
the deposit. -/
theorem spent_exit_cancelled {s₀ : System} {t : UInt64} {i m n : ℕ} {prev tx : Transaction}
    (hstart : Started C E s₀)
    (h : Steps C E (fun _ op => Honest C op ∧ Completing C op) s₀ s)
    (hlog : ∀ a i d t, .deposit a i d t ∈ s.log → t ≠ 0)
    (hlen : s.backend.chain.length ≤ 2 ^ 64) (hE : SameRecovery C E)
    (hempty : E.keccak [] = Contract.emptyHash)
    (hcf : Smt.CollisionFree C.keccak (allHashed C s.backend))
    (hprev : (included t s.backend.node.chain)[i]? = some (m, prev))
    (htx : (included t s.backend.node.chain)[i + 1]? = some (n, tx))
    (hpub : s.contract.childChain (UInt64.ofNat n) ≠ zeroHash) (hacc : Acceptable tx)
    (hpending : (s.contract.exits t).exitableTS ≠ 0)
    (hexitor : (s.contract.exits t).exitor = prev.recipient)
    (hexit : (s.contract.exits t).exitBlk = UInt64.ofNat m ∨
      (s.contract.exits t).prevBlk = 0 ∧ (s.contract.exits t).exitBlk = 1) (msg : Msg) :
    ∃ p c, s.backend.getPlasmaTransactionProof C (tx.hash C) =
        .ok (.ok (some ⟨t, tx.bytes, p, n⟩)) ∧
      s.contract.challenge E msg tx.bytes p.bytes (UInt64.ofNat n) = .ok c ∧
      c.exits t = Contract.noExit := by
  have hserves := h.serves hstart hlog hlen hE.keccak hempty hcf
  have hmem := List.mem_of_getElem? htx
  obtain ⟨p, hp⟩ := hserves.shows hE hlen hmem hacc hpub
  obtain ⟨horder, hblock, howner⟩ := hserves.linked hprev htx
  obtain ⟨hm, -⟩ := block_of_included (aligned_of_run hserves.run) (List.mem_of_getElem? hprev)
  obtain ⟨balance, hparse, -⟩ := hp.parse (msg.behind 0)
  have htoken : (parsed tx balance).tokenID = t := hp.token
  have hm64 : m < 2 ^ 64 := by
    rw [← hblock]
    exact tx.prevBlock.toNat_lt
  have hnumber : (UInt64.ofNat m).toNat = m := UInt64.toNat_ofNat_of_lt' hm64
  have hnamed : tx.prevBlock = UInt64.ofNat m := UInt64.toNat_inj.mp (hblock.trans hnumber.symm)
  have hnonzero : tx.prevBlock ≠ 0 := by
    intro h0
    rw [h0] at hblock
    exact hm hblock.symm
  -- the transaction is after the exit, and is signed by who exits
  have hafter : (s.contract.exits t).exitBlk < UInt64.ofNat n := by
    rw [UInt64.lt_iff_toNat_lt, hp.number]
    rcases hexit with hexit | ⟨-, hexit⟩
    · rw [hexit, hnumber]
      exact horder
    · rw [hexit]
      change 1 < n
      omega
  refine ⟨p, _, hp.served, Contract.challenge_eq_ok.mpr ⟨parsed tx balance,
    ⟨hparse, ?_, ?_, ?_, hp.verify _, ?_⟩, rfl⟩, ?_⟩
  · rw [htoken]
    exact UInt64.pos_iff_ne_zero.mpr hp.nonzero
  · rw [htoken]
    exact Nat.pos_of_ne_zero hpending
  · rw [htoken, Contract.challengeCond_eq_ok, hexitor]
    refine ⟨fun _ => ⟨howner, ?_⟩, fun hnot => absurd hafter hnot⟩
    split_ifs with h0
    · exact hnonzero
    · rcases hexit with hexit | ⟨hprev0, -⟩
      · exact hnamed.trans hexit.symm
      · exact absurd hprev0 h0
  · rw [htoken]
    exact hp.member
  · change Function.update s.contract.exits (parsed tx balance).tokenID Contract.noExit t = _
    rw [htoken, Function.update_self]

/-- The depositor exits after the transfer, and the transfer cancels it. -/
theorem spent_exit_cancelled_deposit : ∃ s₀ s p c, Started operatorCrypto operatorEvm s₀ ∧
    Steps operatorCrypto operatorEvm
      (fun _ op => Honest operatorCrypto op ∧ Completing operatorCrypto op) s₀ s ∧
    (s.contract.exits smallDeposit.tokenID).exitableTS ≠ 0 ∧
    s.contract.challenge operatorEvm (callAt 50 Plasma.zeroAddress) otherTransfer.bytes
      (Smt.Proof.bytes p) 2 = .ok c ∧
    c.exits smallDeposit.tokenID = Contract.noExit := by
  obtain ⟨s₀, s, hstart, hrun, hs, hhistory, hpending, hexitor, hexit⟩ :=
    exists_steps operatorCrypto operatorEvm
    (fun _ op => Honest operatorCrypto op ∧ Completing operatorCrypto op)
    (depositAndTransfer ++
      [.call (callAt 40 Plasma.smallCrypto.operatorAddr) (.depositExit 0)])
    (fun s => Computed s ∧ History s ∧
      (s.contract.exits smallDeposit.tokenID).exitableTS ≠ 0 ∧
      (s.contract.exits smallDeposit.tokenID).exitor = smallDeposit.recipient ∧
      (s.contract.exits smallDeposit.tokenID).prevBlk = 0 ∧
      (s.contract.exits smallDeposit.tokenID).exitBlk = 1)
    (fun _ => by decide +kernel) (by decide +kernel)
  obtain ⟨p, c, -, hcall, hexits⟩ := spent_exit_cancelled hstart hrun
    (ne_zero_of_noZeroToken hs.2.2.1) (by rw [hs.length]; norm_num) sameRecovery_operatorEvm rfl
    hs.collisionFree (i := 0) (by rw [hhistory]; rfl) (by rw [hhistory]; rfl) hs.2.2.2.2.2
    (by decide) hpending hexitor (.inr hexit) (callAt 50 Plasma.zeroAddress)
  exact ⟨s₀, s, p, c, hstart, hrun, hpending, hcall, hexits⟩

end GoPlasma.Bridge
