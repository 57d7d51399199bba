import GoPlasma.Contract.RootChain

/-!
# What a call can do

`Effect` says in five cases all that a successful call does to the state: a block is published, a
deposit is made, an exit is opened, an exit is cancelled, or exits are finalized. Finalization is a
sequence of rounds, each of which takes the least entry out of the queue. The invariants of later
modules are proved for these cases and rounds, and hold in every run by `RunWith.keeps`.
-/

namespace GoPlasma.Contract

open Plasma (Address zeroAddress)

variable {E : Evm} {msg : Msg} {s s' : RootChain} {shown : List Event}

theorem mem_payments {p : Payment} {log : List Event} : p ∈ payments log ↔ .payment p ∈ log := by
  rw [payments, List.mem_filterMap]
  constructor
  · rintro ⟨e, he, hp⟩
    cases e with
    | deposit => cases hp
    | exitCompleted => cases hp
    | payment p' =>
      obtain rfl := Option.some.inj hp
      exact he
  · exact fun h => ⟨_, h, rfl⟩

/-! ## Opening and cancelling -/

/-- The exit that a call asks for: token, deposit index and record. -/
def Call.opens (msg : Msg) (s : RootChain) : Call → Option (UInt64 × UInt64 × Exit)
  | .depositExit depositIndex =>
    some (s.depositIndex depositIndex, depositIndex,
      ⟨0, 1, msg.sender, s.depositBalance (s.depositIndex depositIndex),
        msg.timestamp.toNat + 60, 0⟩)
  | .startExit _ _ prevBlk txBytes _ blk =>
    match parseTx (msg.behind 0) txBytes with
    | .ok exitTx => some (exitTx.tokenID, exitTx.depositIndex,
        ⟨prevBlk, blk, msg.sender, exitTx.balance, msg.timestamp.toNat + 60, 0⟩)
    | .error _ => none
  | _ => none

/-- What `startExit` checks. -/
structure StartExitOk (E : Evm) (msg : Msg) (s : RootChain) (prevTxBytes prevProof : Bytes)
    (prevBlk : UInt64) (txBytes proof : Bytes) (blk : UInt64) (exitTx prevTx : PlasmaTx) :
      Prop where
  parseExit : parseTx (msg.behind 0) txBytes = .ok exitTx
  parsePrev : parseTx (msg.behind 1) prevTxBytes = .ok prevTx
  token : 0 < exitTx.tokenID
  recipient : exitTx.recipient = msg.sender
  owner : exitTx.prevOwner = prevTx.recipient
  sameToken : exitTx.tokenID = prevTx.tokenID
  verifyExit : verifyTx (msg.behind 2) txBytes E = .ok true
  verifyPrev : verifyTx (msg.behind 3) prevTxBytes E = .ok true
  order : prevBlk < blk
  link : prevBlk = exitTx.prevBlock
  memberPrev : checkMembership E s.smt (E.keccak prevTxBytes) (s.childChain prevBlk)
    exitTx.tokenID prevProof = .ok true
  memberExit : checkMembership E s.smt (E.keccak txBytes) (s.childChain blk) exitTx.tokenID proof
    = .ok true

/-- What is known of an exit when it is opened: it is one of a deposit, or `startExit` was shown its
transaction and the one before. -/
inductive Grounds (E : Evm) (msg : Msg) (s : RootChain) (call : Call) (tokenID depID : UInt64) :
    Exit → Prop where
  | deposit (hcall : call = .depositExit depID)
      (hash : tokenHash E msg.sender depID (s.depositBalance tokenID) = tokenID)
      (positive : 0 < s.depositBalance tokenID) (index : s.depositIndex depID = tokenID) :
      Grounds E msg s call tokenID depID
        ⟨0, 1, msg.sender, s.depositBalance tokenID, msg.timestamp.toNat + 60, 0⟩
  | start {prevTxBytes prevProof txBytes proof : Bytes} {prevBlk blk : UInt64}
      {exitTx prevTx : PlasmaTx}
      (hcall : call = .startExit prevTxBytes prevProof prevBlk txBytes proof blk)
      (token : exitTx.tokenID = tokenID)
      (h : StartExitOk E msg s prevTxBytes prevProof prevBlk txBytes proof blk exitTx prevTx) :
      Grounds E msg s call tokenID depID
        ⟨prevBlk, blk, msg.sender, exitTx.balance, msg.timestamp.toNat + 60, 0⟩

/-- An exit is queued and recorded. -/
structure Opened (s : RootChain) (tokenID depID : UInt64) (etx : Exit) (s' : RootChain) : Prop where
  free : (s.exits tokenID).exitableTS = 0
  state : ∃ q, s.exitsQueue.insert (RootChain.priority etx.exitableTS depID) = .ok q ∧
    s' = { s with exitsQueue := q, exits := Function.update s.exits tokenID etx }

theorem opened_of_addExitToQueue {tokenID depID : UInt64} {etx : Exit}
    (h : RootChain.addExitToQueue tokenID depID etx s = .ok s') :
      Opened s tokenID depID etx s' := by
  obtain ⟨hfree, h⟩ := requireMsg_bind_eq_ok.mp h
  obtain ⟨q, hq, h⟩ := bind_eq_ok.mp h
  exact ⟨hfree, q, hq, (Except.ok.inj h).symm⟩

/-- What `depositExit` checks. -/
theorem depositExit_ok {d : UInt64} (h : s.depositExit E msg d = .ok s') :
    (s.exits 0).exitableTS = 0 ∧
      tokenHash E msg.sender d (s.depositBalance (s.depositIndex d)) = s.depositIndex d ∧
      0 < s.depositBalance (s.depositIndex d) ∧
      Opened s (s.depositIndex d) d
        ⟨0, 1, msg.sender, s.depositBalance (s.depositIndex d), msg.timestamp.toNat + 60, 0⟩
        s' := by
  obtain ⟨h0, h⟩ := require_bind_eq_ok.mp h
  obtain ⟨hhash, h⟩ := require_bind_eq_ok.mp h
  obtain ⟨hpos, h⟩ := require_bind_eq_ok.mp h
  exact ⟨h0, hhash, hpos, opened_of_addExitToQueue h⟩

theorem startExit_ok {prevTxBytes prevProof txBytes proof : Bytes} {prevBlk blk : UInt64}
    (h : s.startExit E msg prevTxBytes prevProof prevBlk txBytes proof blk = .ok s') :
    ∃ exitTx prevTx,
      StartExitOk E msg s prevTxBytes prevProof prevBlk txBytes proof blk exitTx prevTx ∧
      Opened s exitTx.tokenID exitTx.depositIndex
        ⟨prevBlk, blk, msg.sender, exitTx.balance, msg.timestamp.toNat + 60, 0⟩ s' := by
  obtain ⟨exitTx, hparse, h⟩ := bind_eq_ok.mp h
  obtain ⟨⟨htoken, -⟩, h⟩ := require_bind_eq_ok.mp h
  obtain ⟨prevTx, hprev, h⟩ := bind_eq_ok.mp h
  obtain ⟨hrec, h⟩ := requireMsg_bind_eq_ok.mp h
  obtain ⟨howner, h⟩ := requireMsg_bind_eq_ok.mp h
  obtain ⟨hsame, h⟩ := requireMsg_bind_eq_ok.mp h
  obtain ⟨hv, h⟩ := checked_bind_eq_ok.mp h
  obtain ⟨hvp, h⟩ := checked_bind_eq_ok.mp h
  obtain ⟨horder, h⟩ := requireMsg_bind_eq_ok.mp h
  obtain ⟨hlink, h⟩ := requireMsg_bind_eq_ok.mp h
  obtain ⟨hm, h⟩ := checked_bind_eq_ok.mp h
  obtain ⟨hmp, h⟩ := checked_bind_eq_ok.mp h
  exact ⟨exitTx, prevTx, ⟨hparse, hprev, htoken, hrec, howner, hsame, hv, hvp, horder, hlink, hm,
    hmp⟩, opened_of_addExitToQueue h⟩

/-- What `challenge` checks. -/
structure ChallengeOk (E : Evm) (msg : Msg) (s : RootChain) (txBytes proof : Bytes) (blk : UInt64)
    (tx : PlasmaTx) : Prop where
  parse : parseTx (msg.behind 0) txBytes = .ok tx
  token : 0 < tx.tokenID
  pending : 0 < (s.exits tx.tokenID).exitableTS
  cond : RootChain.challengeCond tx (s.exits tx.tokenID) blk = .ok ()
  verify : verifyTx (msg.behind 1) txBytes E = .ok true
  member : checkMembership E s.smt (E.keccak txBytes) (s.childChain blk) tx.tokenID proof = .ok true

/-- `challenge` succeeds exactly when its checks do. -/
theorem challenge_eq_ok {txBytes proof : Bytes} {blk : UInt64} :
    s.challenge E msg txBytes proof blk = .ok s' ↔
      ∃ tx, ChallengeOk E msg s txBytes proof blk tx ∧
        s' = { s with exits := Function.update s.exits tx.tokenID noExit } := by
  constructor
  · intro h
    obtain ⟨tx, hparse, h⟩ := bind_eq_ok.mp h
    obtain ⟨⟨htoken, hpending⟩, h⟩ := requireMsg_bind_eq_ok.mp h
    obtain ⟨⟨⟩, hcond, h⟩ := bind_eq_ok.mp h
    obtain ⟨hv, h⟩ := checked_bind_eq_ok.mp h
    obtain ⟨hm, h⟩ := checked_bind_eq_ok.mp h
    exact ⟨tx, ⟨hparse, htoken, hpending, hcond, hv, hm⟩, (Except.ok.inj h).symm⟩
  · rintro ⟨tx, h, rfl⟩
    refine bind_eq_ok.mpr ⟨tx, h.parse, requireMsg_bind_eq_ok.mpr ⟨⟨h.token, h.pending⟩, ?_⟩⟩
    exact bind_eq_ok.mpr ⟨(), h.cond, checked_bind_eq_ok.mpr ⟨h.verify,
      checked_bind_eq_ok.mpr ⟨h.member, rfl⟩⟩⟩

/-- What `challengeBefore` checks. -/
structure ChallengeBeforeOk (E : Evm) (msg : Msg) (s : RootChain) (txBytes proof : Bytes)
    (blk : UInt64) (faultyTxBytes faultyProof : Bytes) (faultyBlk : UInt64)
    (lastValidTx faultyTx : PlasmaTx) : Prop where
  parse : parseTx (msg.behind 0) txBytes = .ok lastValidTx
  parseFaulty : parseTx (msg.behind 1) faultyTxBytes = .ok faultyTx
  sameToken : lastValidTx.tokenID = faultyTx.tokenID
  owner : lastValidTx.recipient ≠ faultyTx.prevOwner
  link : blk = faultyTx.prevBlock
  member : checkMembership E s.smt (E.keccak txBytes) (s.childChain blk) lastValidTx.tokenID proof
    = .ok true
  memberFaulty : checkMembership E s.smt (E.keccak faultyTxBytes) (s.childChain faultyBlk)
    faultyTx.tokenID faultyProof = .ok true

theorem challengeBefore_ok {txBytes proof faultyTxBytes faultyProof : Bytes}
    {blk faultyBlk : UInt64}
    (h : s.challengeBefore E msg txBytes proof blk faultyTxBytes faultyProof faultyBlk = .ok s') :
    ∃ tx faultyTx, ChallengeBeforeOk E msg s txBytes proof blk faultyTxBytes faultyProof faultyBlk
        tx faultyTx ∧
      s' = { s with exits := Function.update s.exits tx.tokenID noExit } := by
  obtain ⟨tx, hparse, h⟩ := bind_eq_ok.mp h
  obtain ⟨-, h⟩ := requireMsg_bind_eq_ok.mp h
  obtain ⟨faultyTx, hfaulty, h⟩ := bind_eq_ok.mp h
  obtain ⟨hsame, h⟩ := requireMsg_bind_eq_ok.mp h
  obtain ⟨howner, h⟩ := requireMsg_bind_eq_ok.mp h
  obtain ⟨-, h⟩ := checked_bind_eq_ok.mp h
  obtain ⟨-, h⟩ := checked_bind_eq_ok.mp h
  obtain ⟨hlink, h⟩ := requireMsg_bind_eq_ok.mp h
  obtain ⟨-, h⟩ := requireMsg_bind_eq_ok.mp h
  obtain ⟨hm, h⟩ := checked_bind_eq_ok.mp h
  obtain ⟨hmf, h⟩ := checked_bind_eq_ok.mp h
  exact ⟨tx, faultyTx, ⟨hparse, hfaulty, hsame, howner, hlink, hm, hmf⟩, (Except.ok.inj h).symm⟩

/-! ## Deposits -/

/-- A deposit is booked. -/
structure Deposited (E : Evm) (msg : Msg) (s : RootChain) (value : ℕ) (tokenID : UInt64)
    (s' : RootChain) (shown : List Event) : Prop where
  small : value < 2 ^ 64 - 2
  positive : 0 < UInt64.ofNat value
  token : tokenID = tokenHash E msg.sender s.currentDepositIndex (UInt64.ofNat value)
  free : s.depositBalance tokenID = 0
  state : s' = { s with
    depositBalance := Function.update s.depositBalance tokenID (UInt64.ofNat value)
    depositIndex := Function.update s.depositIndex s.currentDepositIndex tokenID
    currentDepositIndex := s.currentDepositIndex + 1
    ether := s.ether + value }
  shown : shown = [.deposit msg.sender s.currentDepositIndex (UInt64.ofNat value) tokenID]

theorem deposit_ok {value : ℕ} {e : Event} (h : s.deposit E msg value = .ok (s', e)) :
    ∃ tokenID, Deposited E msg s value tokenID s' [e] := by
  obtain ⟨hsmall, h⟩ := require_bind_eq_ok.mp h
  obtain ⟨⟨hpos, hfree⟩, h⟩ := require_bind_eq_ok.mp h
  obtain ⟨rfl, rfl⟩ := Prod.mk.inj (Except.ok.inj h)
  exact ⟨_, hsmall, hpos, rfl, hfree, rfl, rfl⟩

/-! ## Finalization -/

theorem transfer_eq_ok {recipient : Address} {amount : UInt64} :
    RootChain.transfer msg recipient amount s = .ok s' ↔
      (msg.accepts recipient ∧ amount.toNat ≤ s.ether) ∧
        s' = { s with ether := s.ether - amount.toNat } := by
  rw [RootChain.transfer]
  split_ifs with h
  · simp [h, eq_comm]
  · simp [h]

/-- What a payment needs. -/
structure CanPay (msg : Msg) (s : RootChain) (tokenID : UInt64) : Prop where
  covered : (s.exits tokenID).balance ≤ s.depositBalance tokenID
  exitor : msg.accepts (s.exits tokenID).exitor
  operator : msg.accepts s.authority
  ether : (s.depositBalance tokenID).toNat ≤ s.ether

/-- The state after the payment. -/
def RootChain.paid (s : RootChain) (depID tokenID : UInt64) : RootChain :=
  { s with
    depositBalance := Function.update s.depositBalance tokenID 0
    depositIndex := Function.update s.depositIndex depID 0
    ether := s.ether - (s.depositBalance tokenID).toNat }

/-- The payment. -/
def RootChain.payment (msg : Msg) (s : RootChain) (depID tokenID : UInt64) : Payment :=
  ⟨s.exits tokenID, depID, tokenID, s.depositBalance tokenID,
    s.depositBalance tokenID - (s.exits tokenID).balance, msg.timestamp⟩

/-- A pending exit is paid exactly when that is possible. -/
theorem payExit_eq_ok {depID tokenID : UInt64} (hexit : (s.exits tokenID).exitor ≠ zeroAddress) :
    s.payExit msg depID tokenID = .ok (s', shown) ↔
      CanPay msg s tokenID ∧ s' = s.paid depID tokenID ∧
        shown = [.payment (s.payment msg depID tokenID)] := by
  set b := (s.exits tokenID).balance with hb
  set d := s.depositBalance tokenID with hd
  have hsub : b ≤ d → (d - b).toNat = d.toNat - b.toNat := fun h => UInt64.toNat_sub_of_le _ _ h
  have hle : b ≤ d → b.toNat ≤ d.toNat := fun h => UInt64.le_iff_toNat_le.mp h
  rw [RootChain.payExit]
  simp only [← hb, ← hd]
  rw [if_pos hexit]
  -- the two transfers together take the deposit balance
  constructor
  · intro h
    obtain ⟨o, ho, h⟩ := bind_eq_ok.mp h
    obtain ⟨hcov, rfl⟩ := uint64Sub_eq_ok.mp ho
    obtain ⟨s₁, h₁, h⟩ := bind_eq_ok.mp h
    obtain ⟨⟨ha, he⟩, rfl⟩ := transfer_eq_ok.mp h₁
    obtain ⟨s₂, h₂, h⟩ := bind_eq_ok.mp h
    obtain ⟨⟨ha', he'⟩, rfl⟩ := transfer_eq_ok.mp h₂
    obtain ⟨rfl, rfl⟩ := Prod.mk.inj (Except.ok.inj h)
    change b.toNat ≤ s.ether at he
    change (d - b).toNat ≤ s.ether - b.toNat at he'
    have := hsub hcov
    have := hle hcov
    refine ⟨⟨hcov, ha, ha', ?_⟩, ?_, rfl⟩
    · change d.toNat ≤ s.ether
      omega
    · rw [RootChain.paid]
      congr 1
      change s.ether - b.toNat - (d - b).toNat = s.ether - d.toNat
      omega
  · rintro ⟨⟨hcov, ha, ha', he⟩, rfl, rfl⟩
    change d.toNat ≤ s.ether at he
    have := hsub hcov
    have := hle hcov
    have hether : s.ether - b.toNat - (d - b).toNat = s.ether - d.toNat := by omega
    refine bind_eq_ok.mpr ⟨d - b, uint64Sub_eq_ok.mpr ⟨hcov, rfl⟩, ?_⟩
    refine bind_eq_ok.mpr ⟨_, transfer_eq_ok.mpr ⟨⟨ha, ?_⟩, rfl⟩, ?_⟩
    · change b.toNat ≤ s.ether
      omega
    refine bind_eq_ok.mpr ⟨_, transfer_eq_ok.mpr ⟨⟨ha', ?_⟩, rfl⟩, ?_⟩
    · change (d - b).toNat ≤ s.ether - b.toNat
      omega
    · refine congrArg Except.ok (Prod.ext ?_ rfl)
      change ({ s with
        depositBalance := Function.update s.depositBalance tokenID 0
        depositIndex := Function.update s.depositIndex depID 0
        ether := s.ether - b.toNat - (d - b).toNat } : RootChain) = _
      rw [hether]
      rfl

/-- An exit that was cancelled, or never was, is passed over. -/
theorem payExit_none {depID tokenID : UInt64} (hexit : (s.exits tokenID).exitor = zeroAddress) :
    s.payExit msg depID tokenID = .ok (s, []) := by
  rw [RootChain.payExit]
  exact if_neg (not_not.mpr hexit)

/-- The deposit index in an entry of the queue. -/
def entryIndex (m : ℕ) : UInt64 := UInt64.ofNat m

/-- The time in an entry of the queue. -/
def entryTime (m : ℕ) : ℕ := m >>> 128

/-- The state after a round: the entry is gone from the queue, and the exit of its token with it. -/
def RootChain.popped (s : RootChain) (q : PriorityQueue) (tokenID : UInt64) : RootChain :=
  { s with exitsQueue := q, exits := Function.update s.exits tokenID noExit }

/-- One round of the loop of `finalizeExits`, for the least entry `m` of the queue. -/
structure Round (msg : Msg) (s : RootChain) (m : ℕ) (q : PriorityQueue) (s' : RootChain)
    (shown : List Event) : Prop where
  min : s.exitsQueue.getMin = .ok m
  due : entryTime m < msg.timestamp.toNat
  rest : s.exitsQueue.delMin = .ok (m, q)
  effect :
    ((s.exits (s.depositIndex (entryIndex m))).exitor = zeroAddress ∧
      s' = s.popped q (s.depositIndex (entryIndex m)) ∧ shown = [.exitCompleted m]) ∨
    ((s.exits (s.depositIndex (entryIndex m))).exitor ≠ zeroAddress ∧
      CanPay msg s (s.depositIndex (entryIndex m)) ∧
      s' = (s.paid (entryIndex m) (s.depositIndex (entryIndex m))).popped q
        (s.depositIndex (entryIndex m)) ∧
      shown = [.payment (s.payment msg (entryIndex m) (s.depositIndex (entryIndex m))),
        .exitCompleted m])

/-- Rounds, one after the other. -/
inductive Rounds (msg : Msg) : RootChain → RootChain → List Event → Prop where
  | nil (s : RootChain) : Rounds msg s s []
  | cons {s s₁ s₂ : RootChain} {m : ℕ} {q : PriorityQueue} {a b : List Event}
      (h : Round msg s m q s₁ a) (rest : Rounds msg s₁ s₂ b) : Rounds msg s s₂ (a ++ b)

theorem getNextExit_eq {m : ℕ} (h : s.exitsQueue.getMin = .ok m) :
    s.getNextExit = .ok (entryIndex m, s.depositIndex (entryIndex m), entryTime m) := by
  rw [RootChain.getNextExit, h]
  rfl

/-- `delMin` removes the entry that `getMin` answers with. -/
theorem getMin_of_delMin {q q' : PriorityQueue} {m : ℕ} (h : q.delMin = .ok (m, q')) :
    q.getMin = .ok m := by
  obtain ⟨m', hm, h⟩ := bind_eq_ok.mp h
  obtain ⟨_, -, h⟩ := bind_eq_ok.mp h
  obtain ⟨_, -, h⟩ := bind_eq_ok.mp h
  obtain ⟨_, -, h⟩ := bind_eq_ok.mp h
  obtain ⟨-, h⟩ := require_bind_eq_ok.mp h
  obtain ⟨_, -, h⟩ := bind_eq_ok.mp h
  obtain ⟨rfl, -⟩ := Prod.mk.inj (Except.ok.inj h)
  exact hm

/-- The loop is a sequence of rounds. -/
theorem rounds_of_finalizeLoop {n m : ℕ} (hmin : s.exitsQueue.getMin = .ok m)
    (h : RootChain.finalizeLoop msg n
      (entryIndex m, s.depositIndex (entryIndex m), entryTime m) s = .ok (s', shown)) :
    Rounds msg s s' shown := by
  induction n generalizing s m s' shown with
  | zero =>
    obtain ⟨rfl, rfl⟩ := Prod.mk.inj (Except.ok.inj h)
    exact .nil s
  | succ n ih =>
    rw [RootChain.finalizeLoop] at h
    by_cases hdue : entryTime m < msg.timestamp.toNat
    · rw [if_pos hdue] at h
      obtain ⟨⟨s₁, paid⟩, hpay, h⟩ := bind_eq_ok.mp h
      obtain ⟨m₀, hmin₀, h⟩ := bind_eq_ok.mp h
      obtain ⟨⟨m', q⟩, hdel, h⟩ := bind_eq_ok.mp h
      -- the payment leaves the queue alone
      have hround : s₁.exitsQueue = s.exitsQueue ∧ (s.exitsQueue.delMin = .ok (m, q) →
          Round msg s m q (s₁.popped q (s.depositIndex (entryIndex m)))
            (paid ++ [.exitCompleted m])) := by
        by_cases hexit : (s.exits (s.depositIndex (entryIndex m))).exitor = zeroAddress
        · rw [payExit_none hexit] at hpay
          obtain ⟨rfl, rfl⟩ := Prod.mk.inj (Except.ok.inj hpay)
          exact ⟨rfl, fun hd => ⟨hmin, hdue, hd, .inl ⟨hexit, rfl, rfl⟩⟩⟩
        · obtain ⟨hcan, rfl, rfl⟩ := (payExit_eq_ok hexit).mp hpay
          exact ⟨rfl, fun hd => ⟨hmin, hdue, hd, .inr ⟨hexit, hcan, rfl, rfl⟩⟩⟩
      obtain ⟨hq, hround⟩ := hround
      rw [hq] at hdel hmin₀
      obtain rfl := Except.ok.inj (hmin₀.symm.trans hmin)
      obtain rfl : m' = m₀ := Except.ok.inj ((getMin_of_delMin hdel).symm.trans hmin)
      replace hround := hround hdel
      change (if 0 < q.currentSize then _ else _) = _ at h
      by_cases hsize : 0 < q.currentSize
      · rw [if_pos hsize] at h
        obtain ⟨next, hnext, h⟩ := bind_eq_ok.mp h
        obtain ⟨⟨s₂, rest⟩, hloop, h⟩ := bind_eq_ok.mp h
        obtain ⟨rfl, rfl⟩ := Prod.mk.inj (Except.ok.inj h)
        obtain ⟨m₁, hm₁, -⟩ := bind_eq_ok.mp hnext
        rw [getNextExit_eq hm₁] at hnext
        obtain rfl := Except.ok.inj hnext
        exact .cons hround (ih hm₁ hloop)
      · rw [if_neg hsize] at h
        obtain ⟨rfl, rfl⟩ := Prod.mk.inj (Except.ok.inj h)
        have := Rounds.cons hround (.nil _)
        rwa [List.append_nil] at this
    · rw [if_neg hdue] at h
      obtain ⟨rfl, rfl⟩ := Prod.mk.inj (Except.ok.inj h)
      exact .nil s

theorem rounds_of_finalizeExits (h : s.finalizeExits msg = .ok (s', shown)) :
    Rounds msg s s' shown := by
  obtain ⟨next, hnext, h⟩ := bind_eq_ok.mp h
  obtain ⟨m, hm, -⟩ := bind_eq_ok.mp hnext
  rw [getNextExit_eq hm] at hnext
  obtain rfl := Except.ok.inj hnext
  exact rounds_of_finalizeLoop hm h

/-! ## Rounds, field by field -/

section
variable {m : ℕ} {q : PriorityQueue}

/-- A round deletes the record of its token. -/
theorem Round.exits (h : Round msg s m q s' shown) :
    s'.exits = Function.update s.exits (s.depositIndex (entryIndex m)) noExit := by
  rcases h.effect with ⟨-, rfl, -⟩ | ⟨-, -, rfl, -⟩
  · rfl
  · rfl

/-- A round touches no other deposit index than its own. -/
theorem Round.depositIndex (h : Round msg s m q s' shown) {d : UInt64} (hd : d ≠ entryIndex m) :
    s'.depositIndex d = s.depositIndex d := by
  rcases h.effect with ⟨-, rfl, -⟩ | ⟨-, -, rfl, -⟩
  · rfl
  · exact Function.update_of_ne hd _ _

theorem Round.currentDepositIndex (h : Round msg s m q s' shown) :
    s'.currentDepositIndex = s.currentDepositIndex := by
  rcases h.effect with ⟨-, rfl, -⟩ | ⟨-, -, rfl, -⟩
  · rfl
  · rfl

/-- A payment that a round shows is of the record of its token. -/
theorem Round.payment (h : Round msg s m q s' shown) {p : Payment} (hp : .payment p ∈ shown) :
    (s.exits (s.depositIndex (entryIndex m))).exitor ≠ zeroAddress ∧
      CanPay msg s (s.depositIndex (entryIndex m)) ∧
      p = s.payment msg (entryIndex m) (s.depositIndex (entryIndex m)) := by
  rcases h.effect with ⟨-, -, rfl⟩ | ⟨hexit, hcan, -, rfl⟩
  · simp at hp
  · simp only [List.mem_cons, Event.payment.injEq, reduceCtorEq, List.not_mem_nil,
      or_false] at hp
    exact ⟨hexit, hcan, hp⟩

end

/-! ## All calls -/

/-- What a successful call does. -/
inductive Effect (E : Evm) (msg : Msg) (s : RootChain) (call : Call) :
    RootChain → List Event → Prop where
  | published {blkRoot : Hash} {blknum : UInt64} (hcall : call = .submitBlock blkRoot blknum)
      (hauth : msg.sender = s.authority) :
      Effect E msg s call { s with
        childChain := Function.update s.childChain blknum blkRoot, currentBlkNum := blknum } []
  | deposited {value : ℕ} {tokenID : UInt64} {s' : RootChain} {shown : List Event}
      (hcall : call = .deposit value) (h : Deposited E msg s value tokenID s' shown) :
      Effect E msg s call s' shown
  | opened {tokenID depID : UInt64} {etx : Exit} {s' : RootChain}
      (hcall : call.opens msg s = some (tokenID, depID, etx))
      (hgrounds : Grounds E msg s call tokenID depID etx) (h : Opened s tokenID depID etx s') :
      Effect E msg s call s' []
  | cancelled (tokenID : UInt64)
      (hcall : (∃ txBytes proof blk, call = .challenge txBytes proof blk) ∨
        ∃ txBytes proof blk txBytes' proof' blk',
          call = .challengeBefore txBytes proof blk txBytes' proof' blk') :
      Effect E msg s call { s with exits := Function.update s.exits tokenID noExit } []
  | finalized {s' : RootChain} {shown : List Event} (hcall : call = .finalizeExits)
      (h : Rounds msg s s' shown) : Effect E msg s call s' shown

theorem exec_effect {call : Call} (h : s.exec E msg call = .ok (s', shown)) :
    Effect E msg s call s' shown := by
  -- each call has one of five effects
  cases call with
  | submitBlock blkRoot blknum =>
    obtain ⟨s₁, h₁, h⟩ := bind_eq_ok.mp h
    obtain ⟨rfl, rfl⟩ := Prod.mk.inj (Except.ok.inj h)
    obtain ⟨hauth, h₁⟩ := require_bind_eq_ok.mp h₁
    obtain rfl := Except.ok.inj h₁
    exact .published rfl hauth
  | deposit value =>
    obtain ⟨⟨s₁, e⟩, h₁, h⟩ := bind_eq_ok.mp h
    obtain ⟨rfl, rfl⟩ := Prod.mk.inj (Except.ok.inj h)
    obtain ⟨tokenID, hd⟩ := deposit_ok h₁
    exact .deposited rfl hd
  | depositExit d =>
    obtain ⟨s₁, h₁, h⟩ := bind_eq_ok.mp h
    obtain ⟨rfl, rfl⟩ := Prod.mk.inj (Except.ok.inj h)
    obtain ⟨-, hhash, hpos, hopened⟩ := depositExit_ok h₁
    exact .opened rfl (.deposit rfl hhash hpos rfl) hopened
  | startExit prevTxBytes prevProof prevBlk txBytes proof blk =>
    obtain ⟨s₁, h₁, h⟩ := bind_eq_ok.mp h
    obtain ⟨rfl, rfl⟩ := Prod.mk.inj (Except.ok.inj h)
    obtain ⟨exitTx, prevTx, hok, hopened⟩ := startExit_ok h₁
    refine .opened ?_ (.start rfl rfl hok) hopened
    simp only [Call.opens, hok.parseExit]
  | challenge txBytes proof blk =>
    obtain ⟨s₁, h₁, h⟩ := bind_eq_ok.mp h
    obtain ⟨rfl, rfl⟩ := Prod.mk.inj (Except.ok.inj h)
    obtain ⟨tx, -, rfl⟩ := challenge_eq_ok.mp h₁
    exact .cancelled tx.tokenID (.inl ⟨_, _, _, rfl⟩)
  | challengeBefore txBytes proof blk faultyTxBytes faultyProof faultyBlk =>
    obtain ⟨s₁, h₁, h⟩ := bind_eq_ok.mp h
    obtain ⟨rfl, rfl⟩ := Prod.mk.inj (Except.ok.inj h)
    obtain ⟨tx, _, -, rfl⟩ := challengeBefore_ok h₁
    exact .cancelled tx.tokenID (.inr ⟨_, _, _, _, _, _, rfl⟩)
  | finalizeExits => exact .finalized rfl (rounds_of_finalizeExits h)

/-- A property of the state and of what was shown holds in every run, if it holds at the start and
every kind of effect keeps it. -/
theorem RunWith.keeps {P : RootChain → Msg → Call → Prop} {I : RootChain → List Event → Prop}
    (hnew : ∀ s sender, newRootChain E sender = .ok s → I s [])
    (hstep : ∀ s now msg call s' log shown, RunWith E P s now log → I s log → P s msg call →
      Effect E msg s call s' shown → I s' (log ++ shown))
    {now : UInt64} {log : List Event} (h : RunWith E P s now log) : I s log := by
  induction h with
  | new sender now hs => exact hnew _ sender hs
  | step msg call h _ hp hcall ih => exact hstep _ _ msg call _ _ _ h ih hp (exec_effect hcall)
  | fail _ _ _ _ _ ih => exact ih

/-- Runs that meet a condition meet a weaker one. -/
theorem RunWith.mono {P Q : RootChain → Msg → Call → Prop} (hPQ : ∀ s msg call, P s msg call →
    Q s msg call) {now : UInt64} {log : List Event} (h : RunWith E P s now log) :
    RunWith E Q s now log := by
  induction h with
  | new sender now hs => exact .new sender now hs
  | step msg call _ htime hp hcall ih => exact .step msg call ih htime (hPQ _ _ _ hp) hcall
  | fail msg call _ htime hcall ih => exact .fail msg call ih htime hcall

theorem RunWith.of_runCalls {P : RootChain → Msg → Call → Prop}
    [∀ s msg call, Decidable (P s msg call)] {calls : List (Msg × Call)} {now now' : UInt64}
    {log log' : List Event} (h : RunWith E P s now log)
    (hrun : runCalls E P calls (s, now, log) = .ok (s', now', log')) :
      RunWith E P s' now' log' := by
  induction calls generalizing s now log with
  | nil =>
    obtain ⟨rfl, rfl, rfl⟩ := Except.ok.inj hrun
    exact h
  | cons c calls ih =>
    obtain ⟨msg, call⟩ := c
    obtain ⟨⟨htime, hp⟩, hrun⟩ := require_bind_eq_ok.mp hrun
    obtain ⟨⟨s₁, shown⟩, hcall, hrun⟩ := bind_eq_ok.mp hrun
    exact ih (.step msg call h htime hp hcall) hrun

/-- A run that can be computed is a run. -/
theorem exists_runWith (E : Evm) (P : RootChain → Msg → Call → Prop)
    [∀ s msg call, Decidable (P s msg call)] (sender : Address) (calls : List (Msg × Call))
    (Q : RootChain → List Event → Prop) [∀ s log, Decidable (Q s log)]
    (h : (match deployAndRun E P sender calls with
      | .ok (s, _, log) => decide (Q s log)
      | .error _ => false) = true) :
    ∃ s now log, RunWith E P s now log ∧ Q s log := by
  cases hrun : deployAndRun E P sender calls with
  | error e => simp [hrun] at h
  | ok r =>
    obtain ⟨s, now, log⟩ := r
    simp only [hrun, decide_eq_true_eq] at h
    obtain ⟨s₀, hnew, hrun⟩ := bind_eq_ok.mp hrun
    exact ⟨s, now, log, (RunWith.new sender 0 hnew).of_runCalls hrun, h⟩

/-- What one round keeps, finalization keeps. -/
theorem Rounds.keeps {I : RootChain → List Event → Prop}
    (hround : ∀ s m q s' log shown, I s log → Round msg s m q s' shown → I s' (log ++ shown))
    (log : List Event) (hi : I s log) (h : Rounds msg s s' shown) : I s' (log ++ shown) := by
  induction h generalizing log with
  | nil => rwa [List.append_nil]
  | cons hr _ ih =>
    rw [← List.append_assoc]
    exact ih _ (hround _ _ _ _ _ _ hi hr)

/-! ## The queue -/

theorem newRootChain_ok {sender : Address} (h : newRootChain E sender = .ok s) :
    ∃ smt, newSparseMerkle E = .ok smt ∧
      s = ⟨sender, 0, 0, fun _ => zeroHash, fun _ => 0, fun _ => 0, fun _ => noExit, .new,
        smt, 0⟩ := by
  obtain ⟨smt, hsmt, h⟩ := bind_eq_ok.mp h
  exact ⟨smt, hsmt, (Except.ok.inj h).symm⟩

/-- A round takes an entry out of the queue. -/
theorem Round.queue {m : ℕ} {q : PriorityQueue} (h : Round msg s m q s' shown)
    (hq : s.exitsQueue.WF) : s'.exitsQueue = q ∧ q.WF ∧ m ::ₘ q.entries = s.exitsQueue.entries ∧
      ∀ x ∈ s.exitsQueue.entries, m ≤ x := by
  have hne := hq.ne_zero_of_getMin h.min
  obtain ⟨m₁, q₁, -, hdel, hwf, hent⟩ := hq.delMin hne
  obtain ⟨m₂, hmin₂, -, hle⟩ := hq.getMin hne
  obtain ⟨rfl, rfl⟩ := Prod.mk.inj (Except.ok.inj (h.rest.symm.trans hdel))
  obtain rfl := Except.ok.inj (hmin₂.symm.trans h.min)
  refine ⟨?_, hwf, hent, hle⟩
  rcases h.effect with ⟨-, rfl, -⟩ | ⟨-, -, rfl, -⟩
  · rfl
  · rfl

/-- An opened exit adds its entry to the queue. -/
theorem Opened.queue {tokenID depID : UInt64} {etx : Exit} (h : Opened s tokenID depID etx s')
    (hq : s.exitsQueue.WF) : s'.exitsQueue.WF ∧
      s'.exitsQueue.entries = RootChain.priority etx.exitableTS depID ::ₘ s.exitsQueue.entries := by
  obtain ⟨q, hins, rfl⟩ := h.state
  obtain ⟨q', hins', hwf, hent⟩ := hq.insert (RootChain.priority etx.exitableTS depID)
  obtain rfl := Except.ok.inj (hins.symm.trans hins')
  exact ⟨hwf, hent⟩

/-- The queue is a heap in every run. -/
theorem RunWith.queue_wf {P : RootChain → Msg → Call → Prop} {now : UInt64} {log : List Event}
    (h : RunWith E P s now log) : s.exitsQueue.WF := by
  refine h.keeps (I := fun s _ => s.exitsQueue.WF) ?_ ?_
  · intro s sender hs
    obtain ⟨smt, -, rfl⟩ := newRootChain_ok hs
    exact PriorityQueue.wf_new
  · intro s now msg call s' log shown _ hwf _ heff
    cases heff with
    | published => exact hwf
    | deposited _ hd =>
      rw [hd.state]
      exact hwf
    | opened _ _ ho => exact (ho.queue hwf).1
    | cancelled => exact hwf
    | finalized _ hr =>
      refine hr.keeps (I := fun s _ => s.exitsQueue.WF) ?_ log hwf
      intro s m q s' _ _ hwf hround
      obtain ⟨hq, hwf', -⟩ := hround.queue hwf
      rw [hq]
      exact hwf'

/-- The table of default hashes is that of the constructor. -/
theorem RunWith.smt {P : RootChain → Msg → Call → Prop} {now : UInt64} {log : List Event}
    (h : RunWith E P s now log) : newSparseMerkle E = .ok s.smt := by
  refine h.keeps (I := fun s _ => newSparseMerkle E = .ok s.smt) ?_ ?_
  · intro s sender hs
    obtain ⟨smt, hsmt, rfl⟩ := newRootChain_ok hs
    exact hsmt
  · intro s now msg call s' log shown _ hi _ heff
    cases heff with
    | published => exact hi
    | deposited _ hd =>
      rw [hd.state]
      exact hi
    | opened _ _ ho =>
      obtain ⟨q, -, rfl⟩ := ho.state
      exact hi
    | cancelled => exact hi
    | finalized _ hr =>
      refine hr.keeps (I := fun s _ => newSparseMerkle E = .ok s.smt) ?_ log hi
      intro s m q s' _ _ hi hround
      rcases hround.effect with ⟨-, rfl, -⟩ | ⟨-, -, rfl, -⟩
      · exact hi
      · exact hi

/-! ## Pending exits -/

theorem forall_update_exits {J : UInt64 → Exit → Prop} {exits : UInt64 → Exit} {t₀ : UInt64}
    {e : Exit} (he : e.exitableTS ≠ 0 → J t₀ e)
    (h : ∀ t, (exits t).exitableTS ≠ 0 → J t (exits t)) (t : UInt64)
    (ht : (Function.update exits t₀ e t).exitableTS ≠ 0) : J t (Function.update exits t₀ e t) := by
  by_cases heq : t = t₀
  · subst heq
    rw [Function.update_self] at ht ⊢
    exact he ht
  · rw [Function.update_of_ne heq] at ht ⊢
    exact h t ht

/-- What holds of every exit when it is opened, holds of every pending exit. -/
theorem RunWith.pending {P : RootChain → Msg → Call → Prop} {J : UInt64 → Exit → Prop}
    (hopen : ∀ s now log msg call t d e, RunWith E P s now log → P s msg call →
      Grounds E msg s call t d e → J t e)
    {now : UInt64} {log : List Event} (h : RunWith E P s now log) (t : UInt64)
    (ht : (s.exits t).exitableTS ≠ 0) : J t (s.exits t) := by
  refine h.keeps (I := fun s _ => ∀ t, (s.exits t).exitableTS ≠ 0 → J t (s.exits t)) ?_ ?_ t ht
  · intro s sender hs t ht
    obtain ⟨smt, -, rfl⟩ := newRootChain_ok hs
    exact absurd rfl ht
  · intro s now msg call s' log shown hrun hi hp heff
    -- an exit is pending after a call because it was before, or because the call opened it
    cases heff with
    | published => exact hi
    | deposited _ hd =>
      rw [hd.state]
      exact hi
    | @opened t₀ d e _ _ hg ho =>
      obtain ⟨q, -, rfl⟩ := ho.state
      refine forall_update_exits ?_ hi
      exact fun _ => hopen s now log msg call t₀ d e hrun hp hg
    | cancelled t₀ => exact forall_update_exits (fun hno => absurd rfl hno) hi
    | finalized _ hr =>
      refine hr.keeps (I := fun s _ => ∀ t, (s.exits t).exitableTS ≠ 0 → J t (s.exits t)) ?_ log hi
      intro s m q s' _ _ hi hround
      rw [hround.exits]
      exact forall_update_exits (fun hno => absurd rfl hno) hi

end GoPlasma.Contract
