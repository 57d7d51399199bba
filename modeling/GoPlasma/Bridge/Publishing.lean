import GoPlasma.Bridge.System
import GoPlasma.Contract.ChallengeTheorems
import GoPlasma.Plasma.ReceiptTheorems

/-!
# Which roots the contract has

Over every run of the system the roots in the contract are those of the blocks of the node, each
under the number of its block, and none of them ever changes (`published_blocks`). A block whose
submission could not be sent is never published, and nothing that is in it can be shown to the
contract (`unsent_block_lost`).
-/

namespace GoPlasma.Bridge

open Contract (Call Event Evm Msg RootChain TransactionRoot callAt newRootChain smallEvm)
open Plasma (Backend BackendOp Crypto SealedBlock Transaction depositTransaction newBackend
  smallCrypto)

variable {C : Crypto} {E : Evm} {s s' : System} {op : SystemOp}

/-! ## What a step does -/

/-- The submission of a block. -/
def submission (b : SealedBlock) : Submission :=
  ⟨b.header.transactionRoot, UInt64.ofNat b.header.blockNumber⟩

/-- A call of the node that an operation makes. -/
inductive CallsNode (s : System) : SystemOp → BackendOp → Prop where
  | node (op : BackendOp) (client : Client) : CallsNode s (.node op client) op
  | event {i : ℕ} {depositor : Plasma.Address} {depositIndex denomination tokenID : UInt64}
      (h : s.log[i]? = some (.deposit depositor depositIndex denomination tokenID)) :
      CallsNode s (.event i) (.deposit ⟨depositIndex, denomination, depositor⟩)

/-- A call of the contract that an operation makes, and the submissions that are left then. -/
inductive CallsContract (C : Crypto) (s : System) :
    SystemOp → Msg → Call → List Submission → Prop where
  | mine {x : Submission} {rest : List Submission} (msg : Msg) (h : s.sent = x :: rest) :
      CallsContract C s (.mine msg) { msg with sender := C.operatorAddr }
        (.submitBlock x.transactionRoot x.blocknumber) rest
  | call (msg : Msg) (call : Call) : CallsContract C s (.call msg call) msg call s.sent

/-- The client fails during `publishBlock`, if a block is made. -/
def Loses : SystemOp → Prop
  | .node _ client => client.reads = false ∨ client.sends = false
  | _ => False

/-- What a step of the system does. -/
inductive Change (C : Crypto) (E : Evm) (s : System) (op : SystemOp) : System → Prop where
  | same : Change C E s op s
  /-- The node is called, and makes no block. -/
  | called {bop : BackendOp} {b : Backend} (hop : CallsNode s op bop)
      (hstep : s.backend.step C bop = .ok b) (hchain : b.chain = s.backend.chain) :
      Change C E s op { s with backend := b }
  /-- The node makes a block, which is submitted or not. -/
  | made {bop : BackendOp} {b : Backend} {sent : List Submission} (hop : CallsNode s op bop)
      (hstep : s.backend.step C bop = .ok b) (hchain : b.chain = s.backend.chain ++ [b.head])
      (hsent : sent = s.sent ∧ Loses op ∨ sent = s.sent ++ [submission b.head]) :
      Change C E s op { s with backend := b, sent := sent }
  /-- The contract is called. -/
  | executed {msg : Msg} {call : Call} {rest : List Submission} {c : RootChain}
      {shown : List Event} (hop : CallsContract C s op msg call rest)
      (htime : s.now ≤ msg.timestamp) (hexec : s.contract.exec E msg call = .ok (c, shown)) :
      Change C E s op
        { s with
          sent := rest
          contract := c
          now := msg.timestamp
          log := s.log ++ shown
          published := s.published ++ publishedBy s.contract call }
  /-- The contract is called, and the call fails. -/
  | failed {msg : Msg} {call : Call} {rest : List Submission} {e : Contract.Revert}
      (hop : CallsContract C s op msg call rest) (htime : s.now ≤ msg.timestamp)
      (hexec : s.contract.exec E msg call = .error e) :
      Change C E s op { s with sent := rest, now := msg.timestamp }

/-- A call of the node makes no block, or puts one at the end of the chain. -/
theorem backend_step_chain {b b' : Backend} {bop : BackendOp} (h : b.step C bop = .ok b') :
    b'.chain = b.chain ∨ b'.chain = b.chain ++ [b'.head] := by
  by_cases hop : ∃ c x fault, bop = .mint c x fault
  · obtain ⟨c, x, fault, rfl⟩ := hop
    rcases Backend.mint_cases h with hu | ⟨m, tree, trees, hs⟩
    · exact .inl hu.chain
    · exact .inr hs.chain
  · obtain ⟨-, -, -, -, hchain, -⟩ :=
      Backend.step_submission h fun c x fault heq => hop ⟨c, x, fault, heq⟩
    exact .inl hchain

theorem insertChainForPOA_eq (client : Client) (s : System) :
    ∃ sent, insertChainForPOA client s = { s with sent := sent } ∧
      (sent = s.sent ∧ (client.reads = false ∨ client.sends = false) ∨
        sent = s.sent ++ [submission s.backend.head]) := by
  unfold insertChainForPOA publishBlock
  split_ifs with hreads hsends
  · exact ⟨s.sent, rfl, .inl ⟨rfl, .inl hreads⟩⟩
  · exact ⟨_, rfl, .inr rfl⟩
  · refine ⟨s.sent, rfl, .inl ⟨rfl, .inr ?_⟩⟩
    exact Bool.eq_false_iff.mpr fun h => hsends ⟨rfl, h⟩

theorem change_of_callNode {bop : BackendOp} {client : Client}
    (h : callNode C bop client s = .ok s') : Change C E s (.node bop client) s' := by
  obtain ⟨b, hstep, h⟩ := bind_eq_ok.mp h
  dsimp only at h
  rcases backend_step_chain hstep with hchain | hchain
  · rw [if_pos (by rw [hchain])] at h
    obtain rfl := Except.ok.inj h
    exact .called (.node bop client) hstep hchain
  · rw [if_neg (by rw [hchain]; simp)] at h
    obtain rfl := Except.ok.inj h
    obtain ⟨sent, heq, hsent⟩ := insertChainForPOA_eq client { s with backend := b }
    rw [heq]
    exact .made (.node bop client) hstep hchain hsent

/-- A deposit that is told to the node makes no block. -/
theorem change_of_deposit {i : ℕ} {depositor : Plasma.Address}
    {depositIndex denomination tokenID : UInt64}
    (hevent : s.log[i]? = some (.deposit depositor depositIndex denomination tokenID))
    (h : eventHandler C (.deposit depositor depositIndex denomination tokenID) s = .ok s') :
    Change C E s (.event i) s' := by
  obtain ⟨b, hstep, h⟩ := bind_eq_ok.mp h
  have hchain : b.chain = s.backend.chain := by
    obtain rfl := Except.ok.inj hstep
    rfl
  dsimp only at h
  rw [if_pos (by rw [hchain])] at h
  obtain rfl := Except.ok.inj h
  exact .called (.event hevent) hstep hchain

theorem change_of_transact {msg : Msg} {call : Call} {rest : List Submission}
    (hop : CallsContract C s op msg call rest) (htime : s.now ≤ msg.timestamp) :
    Change C E s op (transact E msg call { s with sent := rest }) := by
  unfold transact
  dsimp only
  rcases hexec : s.contract.exec E msg call with e | ⟨c, shown⟩
  · exact .failed hop htime hexec
  · exact .executed hop htime hexec

/-- Every step of the system is one of these changes. -/
theorem step_change (h : s.step C E op = .ok s') : Change C E s op s' := by
  cases op with
  | node bop client => exact change_of_callNode h
  | event i =>
    rw [System.step] at h
    split at h
    · rename_i event hevent
      cases event with
      | deposit depositor depositIndex denomination tokenID =>
        exact change_of_deposit hevent h
      | payment _ | exitCompleted _ =>
        obtain rfl := Except.ok.inj h
        exact .same
    · obtain rfl := Except.ok.inj h
      exact .same
  | mine msg =>
    rw [System.step] at h
    split at h
    · obtain rfl := Except.ok.inj h
      exact .same
    · rename_i x rest hsent
      split_ifs at h with htime
      · obtain rfl := Except.ok.inj h
        exact change_of_transact (.mine msg hsent) htime
      · obtain rfl := Except.ok.inj h
        exact .same
  | call msg call =>
    rw [System.step] at h
    split_ifs at h with htime
    · obtain rfl := Except.ok.inj h
      exact change_of_transact (.call msg call) htime
    · obtain rfl := Except.ok.inj h
      exact .same

/-! ## The contract -/

/-- What a call does to the roots: only the operator writes one. -/
theorem roots_of_effect {c c' : RootChain} {msg : Msg} {call : Call} {shown : List Event}
    (h : Contract.Effect E msg c call c' shown) : c'.authority = c.authority ∧
      ((∃ root blknum, call = .submitBlock root blknum ∧ msg.sender = c.authority ∧
          c'.childChain = Function.update c.childChain blknum root) ∨
        (∀ root blknum, call ≠ .submitBlock root blknum) ∧ c'.childChain = c.childChain) := by
  cases h with
  | published hcall hauth => exact ⟨rfl, .inl ⟨_, _, hcall, hauth, rfl⟩⟩
  | deposited hcall hd =>
    rw [hd.state]
    exact ⟨rfl, .inr ⟨fun _ _ heq => (by cases hcall.symm.trans heq), rfl⟩⟩
  | opened hcall _ ho =>
    obtain ⟨q, -, rfl⟩ := ho.state
    refine ⟨rfl, .inr ⟨?_, rfl⟩⟩
    rintro root blknum rfl
    cases hcall
  | cancelled _ hcall =>
    refine ⟨rfl, .inr ⟨?_, rfl⟩⟩
    rintro root blknum rfl
    rcases hcall with ⟨_, _, _, hcall⟩ | ⟨_, _, _, _, _, _, hcall⟩
    · cases hcall
    · cases hcall
  | finalized hcall hr =>
    have hkeeps := hr.keeps (I := fun s _ => s.authority = c.authority ∧
      s.childChain = c.childChain) (fun s m q s' _ _ hi hround => ?_) [] ⟨rfl, rfl⟩
    · exact ⟨hkeeps.1, .inr ⟨fun _ _ heq => (by cases hcall.symm.trans heq), hkeeps.2⟩⟩
    · rcases hround.effect with ⟨-, rfl, -⟩ | ⟨-, -, rfl, -⟩
      · exact hi
      · exact hi

/-- The operator may always submit. -/
theorem submitBlock_operator {c : RootChain} (h : c.authority = C.operatorAddr) (msg : Msg)
    (root : Hash) (blknum : UInt64) :
    ∃ c', c.exec E { msg with sender := C.operatorAddr } (.submitBlock root blknum) =
      .ok (c', []) := by
  have hsubmit : c.submitBlock { msg with sender := C.operatorAddr } root blknum = .ok
      { c with childChain := Function.update c.childChain blknum root, currentBlkNum := blknum } :=
    Contract.require_bind_eq_ok.mpr ⟨h.symm, rfl⟩
  refine ⟨{ c with childChain := Function.update c.childChain blknum root
                   currentBlkNum := blknum }, ?_⟩
  rw [RootChain.exec, hsubmit]
  rfl

/-- What holds of the system besides the roots. -/
structure System.Ok (C : Crypto) (E : Evm) (s : System) : Prop where
  backend : s.backend.Ok C
  run : Contract.Run E s.contract s.now s.log
  authority : s.contract.authority = C.operatorAddr

theorem Started.ok (h : Started C E s) : s.Ok C E where
  backend := by
    rw [h.backend]
    exact Backend.ok_new
  run := by
    rw [h.log]
    exact .new _ _ h.contract
  authority := by
    obtain ⟨smt, -, heq⟩ := Contract.newRootChain_ok h.contract
    rw [heq]

/-- A step keeps the invariant. -/
theorem System.Ok.change (h : s.Ok C E) (hc : Change C E s op s') : s'.Ok C E := by
  cases hc with
  | same => exact h
  | called _ hstep _ => exact ⟨h.backend.step hstep, h.run, h.authority⟩
  | made _ hstep _ _ => exact ⟨h.backend.step hstep, h.run, h.authority⟩
  | executed _ htime hexec =>
    refine ⟨h.backend, .step _ _ h.run htime trivial hexec, ?_⟩
    exact (roots_of_effect (Contract.exec_effect hexec)).1.trans h.authority
  | failed _ htime hexec => exact ⟨h.backend, .fail _ _ h.run htime hexec, h.authority⟩

/-- So does a run. -/
theorem Steps.ok {P : System → SystemOp → Prop} (h : Steps C E P s s') (hok : s.Ok C E) :
    s'.Ok C E := by
  induction h with
  | refl => exact hok
  | step op _ _ hs ih => exact ih.change (step_change hs)

theorem Steps.mono {P Q : System → SystemOp → Prop} (h : Steps C E P s s')
    (hPQ : ∀ s op, P s op → Q s op) : Steps C E Q s s' := by
  induction h with
  | refl => exact .refl
  | step op _ hp hs ih => exact .step op ih (hPQ _ _ hp) hs

/-! ## The roots -/

/-- The roots after these blocks were published over others. -/
def rootsOver (base : UInt64 → Hash) (blocks : List SealedBlock) : UInt64 → Hash :=
  blocks.foldl (fun roots b =>
    Function.update roots (UInt64.ofNat b.header.blockNumber) b.header.transactionRoot) base

section
variable {base : UInt64 → Hash}

theorem rootsOver_concat (blocks : List SealedBlock) (b : SealedBlock) :
    rootsOver base (blocks ++ [b]) = Function.update (rootsOver base blocks)
      (UInt64.ofNat b.header.blockNumber) b.header.transactionRoot := by
  rw [rootsOver, List.foldl_append]
  rfl

/-- A number that none of the blocks has. -/
theorem rootsOver_append_of_notMem {blocks more : List SealedBlock} {blknum : UInt64}
    (h : ∀ b ∈ more, UInt64.ofNat b.header.blockNumber ≠ blknum) :
    rootsOver base (blocks ++ more) blknum = rootsOver base blocks blknum := by
  induction more using List.reverseRecOn with
  | nil => rw [List.append_nil]
  | append_singleton more b ih =>
    rw [← List.append_assoc, rootsOver_concat,
      Function.update_of_ne (h b (by simp)).symm]
    exact ih fun b hb => h b (by simp [hb])

/-- A root is the one of a block with its number, or was there before. -/
theorem rootsOver_cases (blocks : List SealedBlock) (blknum : UInt64) :
    (∃ b ∈ blocks, UInt64.ofNat b.header.blockNumber = blknum ∧
      rootsOver base blocks blknum = b.header.transactionRoot) ∨
    (∀ b ∈ blocks, UInt64.ofNat b.header.blockNumber ≠ blknum) ∧
      rootsOver base blocks blknum = base blknum := by
  induction blocks using List.reverseRecOn with
  | nil => exact .inr ⟨by simp, rfl⟩
  | append_singleton blocks b ih =>
    rw [rootsOver_concat]
    by_cases hb : UInt64.ofNat b.header.blockNumber = blknum
    · subst hb
      exact .inl ⟨b, by simp, rfl, Function.update_self ..⟩
    · rw [Function.update_of_ne (Ne.symm hb)]
      rcases ih with ⟨b', hb', hnumber, hroot⟩ | ⟨hnone, hbase⟩
      · exact .inl ⟨b', by simp [hb'], hnumber, hroot⟩
      · refine .inr ⟨fun b' hb' => ?_, hbase⟩
        rcases List.mem_append.mp hb' with hb' | hb'
        · exact hnone b' hb'
        · rw [List.mem_singleton.mp hb']
          exact hb

end

/-- Over the roots that were there before, these blocks were published, and those are on the
way. -/
structure Carries (base : UInt64 → Hash) (s : System) (mined waiting : List SealedBlock) :
    Prop where
  blocks : (mined ++ waiting).Sublist s.backend.chain.tail
  sent : s.sent = waiting.map submission
  roots : s.contract.childChain = rootsOver base mined

/-- What has happened to the blocks between two states. If the client does not fail, all new blocks
are sent. -/
structure Carried (base : UInt64 → Hash) (fails : Prop) (s : System)
    (mined waiting : List SealedBlock) (s' : System) (mined' waiting' : List SealedBlock) :
      Prop where
  carries : Carries base s' mined' waiting'
  order : mined <+: mined'
  fresh : ∃ added new, s'.backend.chain = s.backend.chain ++ added ∧ new.Sublist added ∧
    (¬ fails → new = added) ∧ mined' ++ waiting' = mined ++ waiting ++ new

/-- No root. -/
def noRoots : UInt64 → Hash := fun _ => zeroHash

/-- A root that is there is the one of a block with its number. -/
theorem exists_of_rootsOver {blocks : List SealedBlock} {blknum : UInt64}
    (h : rootsOver noRoots blocks blknum ≠ zeroHash) :
    ∃ b ∈ blocks, UInt64.ofNat b.header.blockNumber = blknum ∧
      rootsOver noRoots blocks blknum = b.header.transactionRoot := by
  rcases rootsOver_cases blocks blknum with hb | ⟨-, hnone⟩
  · exact hb
  · exact absurd hnone h

/-- At the start nothing is on the way. -/
theorem Started.carries (h : Started C E s) : Carries noRoots s [] [] where
  blocks := List.nil_sublist _
  sent := h.sent
  roots := by
    obtain ⟨smt, -, heq⟩ := Contract.newRootChain_ok h.contract
    rw [heq]
    rfl

section
variable {base : UInt64 → Hash} {fails : Prop} {mined waiting : List SealedBlock}

theorem Carries.carried (h : Carries base s mined waiting) :
    Carried base fails s mined waiting s mined waiting :=
  ⟨h, List.prefix_refl _, [], [], by simp⟩

/-- A step carries the blocks on. -/
theorem Carries.change (h : Carries base s mined waiting) (hok : s.Ok C E) (hp : Honest C op)
    (hc : Change C E s op s') :
    ∃ mined' waiting', Carried base (Loses op) s mined waiting s' mined' waiting' := by
  cases hc with
  | same => exact ⟨mined, waiting, h.carried⟩
  | @called _ b _ _ hchain =>
    refine ⟨mined, waiting, ⟨?_, h.sent, h.roots⟩, List.prefix_refl _, [], [], ?_⟩
    · change (mined ++ waiting).Sublist b.chain.tail
      rw [hchain]
      exact h.blocks
    · simp [hchain]
  | @made _ b _ _ _ hchain hsent =>
    have hne : s.backend.chain ≠ [] := by
      rw [← List.length_pos_iff, hok.backend.length]
      exact Nat.succ_pos _
    have htail : b.chain.tail = s.backend.chain.tail ++ [b.head] := by
      rw [hchain, List.tail_append_of_ne_nil hne]
    rcases hsent with ⟨rfl, hloses⟩ | rfl
    · refine ⟨mined, waiting, ⟨?_, h.sent, h.roots⟩, List.prefix_refl _, [b.head], [], hchain, ?_⟩
      · change (mined ++ waiting).Sublist b.chain.tail
        rw [htail]
        exact h.blocks.trans (List.sublist_append_left _ _)
      · simp [hloses]
    · refine ⟨mined, waiting ++ [b.head], ⟨?_, ?_, h.roots⟩, List.prefix_refl _, [b.head],
        [b.head], hchain, ?_⟩
      · change (mined ++ (waiting ++ [b.head])).Sublist b.chain.tail
        rw [htail, ← List.append_assoc]
        exact h.blocks.append (List.Sublist.refl _)
      · simp [h.sent]
      · simp
  | @executed msg call rest c shown hop htime hexec =>
    rcases (roots_of_effect (Contract.exec_effect hexec)).2 with
      ⟨root, blknum, rfl, hauth, hroots⟩ | ⟨hcall, hroots⟩
    · -- a root is written: it is the oldest submission of the node
      cases hop with
      | @mine x _ msg hsent =>
        rw [h.sent] at hsent
        obtain ⟨b, waiting', rfl, rfl, rfl⟩ := List.map_eq_cons_iff.mp hsent
        refine ⟨mined ++ [b], waiting', ⟨?_, rfl, ?_⟩, List.prefix_append _ _, [], [], ?_⟩
        · change (mined ++ [b] ++ waiting').Sublist s.backend.chain.tail
          simpa using h.blocks
        · change c.childChain = _
          rw [hroots, h.roots, rootsOver_concat]
          rfl
        · simp
      | call msg call => exact absurd (hauth.trans hok.authority) hp
    · cases hop with
      | mine msg hsent => exact absurd rfl (hcall _ _)
      | call msg call =>
        refine ⟨mined, waiting, ⟨h.blocks, h.sent, ?_⟩, List.prefix_refl _, [], [], by simp⟩
        exact hroots.trans h.roots
  | @failed msg call rest e hop htime hexec =>
    cases hop with
    | mine msg hsent =>
      obtain ⟨c, hsubmit⟩ := submitBlock_operator (E := E) hok.authority msg _ _
      rw [hsubmit] at hexec
      cases hexec
    | call msg call =>
      exact ⟨mined, waiting, ⟨h.blocks, h.sent, h.roots⟩, List.prefix_refl _, [], [], by simp⟩

/-- Runs follow each other. -/
theorem Carried.trans {s₁ : System} {mined₁ waiting₁ mined' waiting' : List SealedBlock}
    {fails' : Prop} (h : Carried base fails s mined waiting s₁ mined₁ waiting₁)
    (h' : Carried base fails' s₁ mined₁ waiting₁ s' mined' waiting') :
    Carried base (fails ∨ fails') s mined waiting s' mined' waiting' := by
  obtain ⟨added, new, hchain, hnew, hall, hblocks⟩ := h.fresh
  obtain ⟨added', new', hchain', hnew', hall', hblocks'⟩ := h'.fresh
  refine ⟨h'.carries, h.order.trans h'.order, added ++ added', new ++ new', ?_,
    hnew.append hnew', fun hf => ?_, ?_⟩
  · rw [hchain', hchain, List.append_assoc]
  · rw [hall fun h => hf (.inl h), hall' fun h => hf (.inr h)]
  · rw [hblocks', hblocks, List.append_assoc]

theorem Carried.mono {fails' : Prop} {mined' waiting' : List SealedBlock}
    (h : Carried base fails s mined waiting s' mined' waiting') (hf : fails → fails') :
    Carried base fails' s mined waiting s' mined' waiting' := by
  obtain ⟨added, new, hchain, hnew, hall, hblocks⟩ := h.fresh
  exact ⟨h.carries, h.order, added, new, hchain, hnew, fun hn => hall fun h => hn (hf h), hblocks⟩

/-- A run carries the blocks on. -/
theorem Steps.carried {P : System → SystemOp → Prop} (h : Steps C E P s s')
    (hP : ∀ s op, P s op → Honest C op) (hfails : ∀ s op, P s op → Loses op → fails)
    (hok : s.Ok C E) (hc : Carries base s mined waiting) :
    ∃ mined' waiting', Carried base fails s mined waiting s' mined' waiting' := by
  induction h with
  | refl => exact ⟨mined, waiting, hc.carried⟩
  | step op hrun hp hs ih =>
    obtain ⟨mined₁, waiting₁, h₁⟩ := ih
    obtain ⟨mined', waiting', h'⟩ :=
      h₁.carries.change (hrun.ok hok) (hP _ op hp) (step_change hs)
    refine ⟨mined', waiting', (h₁.trans h').mono ?_⟩
    rintro (hf | hloses)
    · exact hf
    · exact hfails _ op hp hloses

/-- A run carries the blocks on, whatever the client does. -/
theorem Steps.carried_honest (h : Steps C E (fun _ => Honest C) s s') (hok : s.Ok C E)
    (hc : Carries base s mined waiting) :
    ∃ mined' waiting', Carried base True s mined waiting s' mined' waiting' :=
  h.carried (fun _ _ hp => hp) (fun _ _ _ _ => trivial) hok hc

end

/-! ## Results -/

theorem backend_increasing {b : Backend} (h : b.Ok C) :
    b.chain.Pairwise fun x y => x.header.blockNumber < y.header.blockNumber := by
  refine List.pairwise_iff_getElem.mpr fun i j hi hj hij => ?_
  rw [h.numbers i _ (List.getElem?_eq_getElem hi), h.numbers j _ (List.getElem?_eq_getElem hj)]
  exact hij

/-- A block that is not the first one has the root of its transactions. -/
theorem backend_transactionRoot {b : Backend} (h : b.Ok C) {n : ℕ} {x : SealedBlock} (hn : n ≠ 0)
    (hx : b.chain[n]? = some x) : TransactionRoot C.keccak x.block x.header.transactionRoot := by
  obtain ⟨j, rfl⟩ := Nat.exists_eq_succ_of_ne_zero hn
  have hlt := (List.getElem?_eq_some_iff.mp hx).1
  exact (h.follows j _ x (List.getElem?_eq_getElem (Nat.lt_of_succ_lt hlt)) hx).root

/-- Numbers of blocks are told apart. -/
theorem ofNat_blockNumber_ne {b : Backend} (h : b.Ok C) (hlen : b.chain.length ≤ 2 ^ 64)
    {x y : SealedBlock} (hx : x ∈ b.chain) (hy : y ∈ b.chain)
    (hne : x.header.blockNumber ≠ y.header.blockNumber) :
    UInt64.ofNat x.header.blockNumber ≠ UInt64.ofNat y.header.blockNumber := by
  have hbound : ∀ z ∈ b.chain, z.header.blockNumber < 2 ^ 64 := by
    intro z hz
    obtain ⟨i, hi⟩ := List.mem_iff_getElem?.mp hz
    rw [h.numbers i z hi]
    exact lt_of_lt_of_le (List.getElem?_eq_some_iff.mp hi).1 hlen
  intro heq
  have hnat := congrArg UInt64.toNat heq
  rw [UInt64.toNat_ofNat_of_lt' (hbound x hx), UInt64.toNat_ofNat_of_lt' (hbound y hy)] at hnat
  exact hne hnat

section
variable {base : UInt64 → Hash} {fails : Prop}
  {mined waiting mined' waiting' : List SealedBlock}

/-- Blocks that were sent are blocks of the chain. -/
theorem Carries.mem_chain (h : Carries base s mined waiting) {b : SealedBlock}
    (hb : b ∈ mined ++ waiting) : ∃ n, n ≠ 0 ∧ s.backend.chain[n]? = some b := by
  obtain ⟨i, hi⟩ := List.mem_iff_getElem?.mp (h.blocks.subset hb)
  rw [List.getElem?_tail] at hi
  exact ⟨i + 1, Nat.succ_ne_zero i, hi⟩

/-- What is published is not published again under another root. -/
theorem Carried.roots_eq (h : Carried base fails s mined waiting s' mined' waiting')
    (hok : s'.Ok C E) (hlen : s'.backend.chain.length ≤ 2 ^ 64) {b : SealedBlock} (hb : b ∈ mined) :
    rootsOver base mined' (UInt64.ofNat b.header.blockNumber) =
      rootsOver base mined (UInt64.ofNat b.header.blockNumber) := by
  obtain ⟨more, rfl⟩ := h.order
  refine rootsOver_append_of_notMem fun b' hb' => ?_
  have hchain := h.carries.blocks.trans (List.tail_sublist _)
  have hlt := (List.pairwise_append.mp (List.pairwise_append.mp
    ((backend_increasing hok.backend).sublist hchain)).1).2.2 b hb b' hb'
  refine ofNat_blockNumber_ne hok.backend hlen (hchain.subset ?_) (hchain.subset ?_) hlt.ne'
  · simp [hb']
  · simp [hb]

end

/-- The roots in the contract are those of the blocks of the node, under their numbers, and none of
them changes later. -/
theorem published_blocks {s₀ : System} (hstart : Started C E s₀)
    (h : Steps C E (fun _ => Honest C) s₀ s) (hlen : s.backend.chain.length ≤ 2 ^ 64)
    {blknum : UInt64} (hne : s.contract.childChain blknum ≠ zeroHash) :
    ∃ b, s.backend.chain[blknum.toNat]? = some b ∧ blknum ≠ 0 ∧
      s.contract.childChain blknum = b.header.transactionRoot ∧
      TransactionRoot C.keccak b.block b.header.transactionRoot ∧
      ∀ s', Steps C E (fun _ => Honest C) s s' → s'.backend.chain.length ≤ 2 ^ 64 →
        s'.contract.childChain blknum = b.header.transactionRoot := by
  have hok := h.ok hstart.ok
  obtain ⟨mined, waiting, hcarried⟩ := h.carried_honest hstart.ok hstart.carries
  have hcarries := hcarried.carries
  rw [hcarries.roots] at hne ⊢
  obtain ⟨b, hb, rfl, hroot⟩ := exists_of_rootsOver hne
  obtain ⟨n, hn, hbn⟩ := hcarries.mem_chain (List.mem_append_left _ hb)
  have hnumber := hok.backend.numbers n b hbn
  have hlt := (List.getElem?_eq_some_iff.mp hbn).1
  have hnat : (UInt64.ofNat n).toNat = n := UInt64.toNat_ofNat_of_lt' (lt_of_lt_of_le hlt hlen)
  refine ⟨b, ?_, ?_, hroot, backend_transactionRoot hok.backend hn hbn, fun s' h' hlen' => ?_⟩
  · rw [hnumber, hnat]
    exact hbn
  · rw [hnumber]
    intro h0
    rw [h0] at hnat
    exact hn hnat.symm
  · obtain ⟨mined', waiting', hcarried'⟩ := h'.carried_honest hok hcarries
    rw [hcarried'.carries.roots, hcarried'.roots_eq (h'.ok hok) hlen' hb, hroot]

/-! ### One block -/

instance (C : Crypto) : DecidablePred (Honest C)
  | .node (.deposit _) _ => inferInstanceAs (Decidable False)
  | .node (.send _) _ | .node (.sendAnchor _ _ _) _ | .node (.mint _ _ _) _ | .event _ | .mine _ =>
      inferInstanceAs (Decidable True)
  | .call msg (.submitBlock _ _) => inferInstanceAs (Decidable (msg.sender ≠ C.operatorAddr))
  | .call _ (.deposit _) | .call _ (.depositExit _) | .call _ (.startExit _ _ _ _ _ _)
  | .call _ (.challenge _ _ _) | .call _ (.challengeBefore _ _ _ _ _ _) | .call _ .finalizeExits =>
      inferInstanceAs (Decidable True)

theorem Steps.exec {P : System → SystemOp → Prop} {ops : List SystemOp} {s₀ : System}
    (hrun : Steps C E P s₀ s) (hP : ∀ s, ∀ op ∈ ops, P s op) (h : s.exec C E ops = .ok s') :
    Steps C E P s₀ s' := by
  induction ops generalizing s with
  | nil =>
    obtain rfl := Except.ok.inj h
    exact hrun
  | cons op ops ih =>
    obtain ⟨s₁, hs, h⟩ := bind_eq_ok.mp h
    exact ih (.step op hrun (hP s op (by simp)) hs) (fun s op h' => hP s op (by simp [h'])) h

/-- Steps that can be computed are steps. -/
theorem exists_reaches {P : System → SystemOp → Prop} {ops : List SystemOp} {Q : System → Prop}
    [DecidablePred Q] (hP : ∀ s, ∀ op ∈ ops, P s op) (h : s.reaches C E ops Q = true) :
    ∃ s', Steps C E P s s' ∧ Q s' := by
  unfold System.reaches at h
  split at h
  · rename_i s' hs
    exact ⟨s', Steps.refl.exec hP hs, of_decide_eq_true h⟩
  · cases h

/-- A run that can be computed is a run. -/
theorem exists_steps (C : Crypto) (E : Evm) (P : System → SystemOp → Prop) (ops : List SystemOp)
    (Q : System → Prop) [DecidablePred Q] (hP : ∀ s, ∀ op ∈ ops, P s op)
    (h : System.leadsTo C E ops Q = true) :
    ∃ s₀ s, Started C E s₀ ∧ Steps C E P s₀ s ∧ Q s := by
  unfold System.leadsTo at h
  split at h
  · rename_i contract hnew
    obtain ⟨s, hrun, hQ⟩ := exists_reaches hP h
    exact ⟨_, s, ⟨rfl, rfl, hnew, rfl, rfl⟩, hrun, hQ⟩
  · cases h

/-- The operator makes a deposit, the node is told of it, and mints it. -/
def depositBlock (client : Client) : List SystemOp :=
  [.call (callAt 10 smallCrypto.operatorAddr) (.deposit 5), .event 0,
    .node (.mint ⟨[Plasma.smallDeposit], [], ⟨[Plasma.smallDeposit.tokenID],
      [smallCrypto.operatorAddr], []⟩⟩ Plasma.bareSealing none) client]

/-- The second deposit, of 7 by the operator. -/
def secondDeposit : Transaction :=
  { depositTransaction smallCrypto ⟨1, 7, smallCrypto.operatorAddr⟩ with
    sig := Plasma.zeroSig }

/-- It is made. -/
def secondCall : SystemOp := .call (callAt 30 smallCrypto.operatorAddr) (.deposit 7)

/-- It is minted, and the root of its block is published. -/
def secondBlock : List SystemOp :=
  [.event 1,
    .node (.mint ⟨[secondDeposit], [], ⟨[secondDeposit.tokenID],
      [smallCrypto.operatorAddr], []⟩⟩ Plasma.bareSealing none) ⟨true, true⟩,
    .mine (callAt 40 Plasma.zeroAddress)]

/-- Its root is published. -/
theorem published_blocks_deposit : ∃ s₀ s b, Started smallCrypto smallEvm s₀ ∧
    Steps smallCrypto smallEvm (fun _ => Honest smallCrypto) s₀ s ∧
    s.backend.chain[1]? = some b ∧ s.contract.childChain 1 = b.header.transactionRoot := by
  obtain ⟨s₀, s, hstart, hrun, hlen, hne⟩ := exists_steps smallCrypto smallEvm
    (fun _ => Honest smallCrypto)
    (depositBlock ⟨true, true⟩ ++ [.mine (callAt 20 Plasma.zeroAddress)])
    (fun s => s.backend.chain.length ≤ 2 ^ 64 ∧ s.contract.childChain 1 ≠ zeroHash)
    (fun _ => by decide) (by decide +kernel)
  obtain ⟨b, hb, -, hroot, -⟩ := published_blocks hstart hrun hlen hne
  exact ⟨s₀, s, b, hstart, hrun, hb, hroot⟩

/-- A block that is neither published nor on the way is never published, and what is in it cannot be
shown to the contract. -/
theorem unsent_block_lost {s₀ : System} (hstart : Started C E s₀)
    (h : Steps C E (fun _ => Honest C) s₀ s) {n : ℕ} (hn : n < s.backend.chain.length)
    (hsent : ∀ x ∈ s.sent, x.blocknumber ≠ UInt64.ofNat n)
    (hroot : s.contract.childChain (UInt64.ofNat n) = zeroHash)
    (hzero : ∀ x, E.keccak x ≠ zeroHash) (h' : Steps C E (fun _ => Honest C) s s')
    (hlen : s'.backend.chain.length ≤ 2 ^ 64) :
    s'.contract.childChain (UInt64.ofNat n) = zeroHash ∧
      ∀ msg c, (∀ prevTxBytes prevProof prevBlk txBytes proof blk,
          s'.contract.startExit E msg prevTxBytes prevProof prevBlk txBytes proof blk = .ok c →
            prevBlk ≠ UInt64.ofNat n ∧ blk ≠ UInt64.ofNat n) ∧
        ∀ txBytes proof blk, s'.contract.challenge E msg txBytes proof blk = .ok c →
          blk ≠ UInt64.ofNat n := by
  have hok := h.ok hstart.ok
  have hok' := h'.ok hok
  obtain ⟨mined, waiting, hcarried⟩ := h.carried_honest hstart.ok hstart.carries
  obtain ⟨mined', waiting', hcarried'⟩ := h'.carried_honest hok hcarried.carries
  obtain ⟨added, new, hchain, hnew, -, hblocks⟩ := hcarried'.fresh
  obtain ⟨more, rfl⟩ := hcarried'.order
  -- what was published since then was on the way, or is a new block
  have hmore : ∀ b ∈ more, UInt64.ofNat b.header.blockNumber ≠ UInt64.ofNat n := by
    intro b hb
    rw [List.append_assoc, List.append_assoc] at hblocks
    have hmem : b ∈ waiting ++ new := by
      rw [← List.append_cancel_left hblocks]
      exact List.mem_append_left _ hb
    rcases List.mem_append.mp hmem with hwaiting | hadded
    · refine hsent (submission b) ?_
      rw [hcarried.carries.sent]
      exact List.mem_map_of_mem hwaiting
    · obtain ⟨i, hi⟩ := List.mem_iff_getElem?.mp (hnew.subset hadded)
      have hb' : s'.backend.chain[s.backend.chain.length + i]? = some b := by
        rw [hchain, List.getElem?_append_right (by omega), Nat.add_sub_cancel_left]
        exact hi
      have hnb : s'.backend.chain[n]? = some (s.backend.chain[n]) := by
        rw [hchain, List.getElem?_append_left hn, List.getElem?_eq_getElem hn]
      have hne := ofNat_blockNumber_ne hok'.backend hlen (List.mem_of_getElem? hb')
        (List.mem_of_getElem? hnb)
      rw [hok'.backend.numbers _ _ hb', hok'.backend.numbers _ _ hnb] at hne
      rw [hok'.backend.numbers _ _ hb']
      exact hne (by omega)
  have hlost : s'.contract.childChain (UInt64.ofNat n) = zeroHash := by
    rw [hcarried'.carries.roots, rootsOver_append_of_notMem hmore, ← hcarried.carries.roots]
    exact hroot
  refine ⟨hlost, fun msg c => ⟨fun _ _ prevBlk _ _ blk hexit => ?_, fun _ _ blk hchallenge => ?_⟩⟩
  · obtain ⟨exitTx, prevTx, hexit, -⟩ := Contract.startExit_ok hexit
    refine ⟨?_, ?_⟩
    · rintro rfl
      exact Contract.root_ne_zero hzero hexit.memberPrev hlost
    · rintro rfl
      exact Contract.root_ne_zero hzero hexit.memberExit hlost
  · obtain ⟨tx, hchallenge, -⟩ := Contract.challenge_eq_ok.mp hchallenge
    rintro rfl
    exact Contract.root_ne_zero hzero hchallenge.member hlost

/-- The client cannot send the root of the first block, and the one of the second is published. -/
theorem unsent_block_lost_deposit : ∃ s₀ s s',
    Started smallCrypto smallEvm s₀ ∧
    Steps smallCrypto smallEvm (fun _ => Honest smallCrypto) s₀ s ∧
    Steps smallCrypto smallEvm (fun _ => Honest smallCrypto) s s' ∧
    s'.contract.childChain 2 ≠ zeroHash ∧ s'.contract.childChain 1 = zeroHash := by
  obtain ⟨s₀, s, hstart, hrun, ⟨hlen, hsent, hroot⟩, hlater⟩ := exists_steps smallCrypto
    smallEvm (fun _ => Honest smallCrypto) (depositBlock ⟨true, false⟩)
    (fun s => (s.backend.chain.length = 2 ∧ (∀ x ∈ s.sent, x.blocknumber ≠ UInt64.ofNat 1) ∧
      s.contract.childChain (UInt64.ofNat 1) = zeroHash) ∧
      s.reaches smallCrypto smallEvm (secondCall :: secondBlock) (fun s' =>
        s'.backend.chain.length = 3 ∧ s'.contract.childChain 2 ≠ zeroHash) = true)
    (fun _ => by decide) (by decide +kernel)
  obtain ⟨s', hrun', hlen', hpublished⟩ := exists_reaches (P := fun _ => Honest smallCrypto)
    (fun _ => by decide +kernel) hlater
  exact ⟨s₀, s, s', hstart, hrun, hrun', hpublished, (unsent_block_lost hstart hrun (by omega) hsent
    hroot Contract.smallHash_ne_zero hrun' (by omega)).1⟩

end GoPlasma.Bridge
