import GoPlasma.Bridge.Publishing
import GoPlasma.Contract.AgreementTheorems
import GoPlasma.Contract.SolvencyTheorems
import GoPlasma.Plasma.RecordTheorems

/-!
# What backs the tokens of the child chain

`EventHandler` makes a deposit on the child chain of every deposit that the contract shows. If it is
called with nothing else, and the operator signs no other deposits, then every token of the child
chain was deposited in the contract, with its denomination and by its first owner, and the contract
still holds this denomination as long as it has paid nothing for the token (`tokens_backed`). The
ether of the contract covers all of these tokens together (`supply_covered`). Attempts to mint may
fail, and events may come late, twice or not at all.
-/

namespace GoPlasma.Bridge

open Contract (Event Evm Msg RootChain depositedFor paidFor smallEvm tokenHash)
open Plasma (Backend BackendOp ChainInv Crypto Finds Minted Node Token Transaction
  depositTransaction included newNode smallCrypto smallDeposit tokenKey validateTx)

variable {C : Crypto} {E : Evm} {s s' : System} {op : SystemOp} {log : List Event}

/-! ## What the contract shows -/

/-- Rounds of `finalizeExits` show no deposits. -/
theorem deposit_notMem_of_rounds {c c' : RootChain} {msg : Msg} {shown : List Event}
    (h : Contract.Rounds msg c c' shown) (a : Plasma.Address) (i d t : UInt64) :
    Event.deposit a i d t ∉ shown := by
  have hnone := h.keeps (I := fun _ log => Event.deposit a i d t ∉ log)
    (fun s m q s' log shown hi hround ht => ?_) [] (by simp)
  · exact hnone
  · rcases List.mem_append.mp ht with ht | ht
    · exact hi ht
    · rcases hround.effect with ⟨-, -, rfl⟩ | ⟨-, -, -, rfl⟩
      · simp at ht
      · simp at ht

/-- The token of a deposit is that of its depositor, index and amount, and there is an amount. -/
theorem token_of_deposit {c : RootChain} {now : UInt64} (h : Contract.Run E c now log)
    {a : Plasma.Address} {i d t : UInt64} (ht : .deposit a i d t ∈ log) :
    t = tokenHash E a i d ∧ 0 < d := by
  refine h.keeps
    (I := fun _ log => ∀ a i d t, .deposit a i d t ∈ log → t = tokenHash E a i d ∧ 0 < d)
    (fun _ _ _ _ _ _ _ ht => by cases ht) ?_ a i d t ht
  intro s now msg call s' log shown _ hi _ heff a i d t ht
  rcases List.mem_append.mp ht with ht | ht
  · exact hi a i d t ht
  · cases heff with
    | published => cases ht
    | deposited _ hd =>
      rw [hd.shown, List.mem_singleton] at ht
      cases ht
      exact ⟨hd.token, hd.positive⟩
    | opened => cases ht
    | cancelled => cases ht
    | finalized _ hr => exact absurd ht (deposit_notMem_of_rounds hr a i d t)

/-- As long as nothing was paid for a token, its balance is what was deposited. -/
theorem balance_of_deposit {c : RootChain} {now : UInt64} (h : Contract.Run E c now log)
    {a : Plasma.Address} {i d t : UInt64} (ht : .deposit a i d t ∈ log)
    (hpaid : paidFor t log = 0) : c.depositBalance t = d := by
  have hbooked := h.accounts.booked t
  obtain ⟨before, after, rfl⟩ := List.append_of_mem ht
  have hpos : 0 < d.toNat := UInt64.lt_iff_toNat_lt.mp (token_of_deposit h ht).2
  have htotal := hbooked.total
  have hsettled := hbooked.settled before a i d after rfl
  simp only [Contract.paidFor_append, Contract.paidFor_cons, Contract.depositedFor_append,
    Contract.depositedFor_cons, Contract.Event.paidFor, Contract.Event.depositedFor,
    if_true] at hpaid htotal
  -- a later deposit of the token would have found this one paid out
  have hafter : depositedFor t after = 0 := by
    refine List.sum_eq_zero fun x hx => ?_
    obtain ⟨e, he, rfl⟩ := List.mem_map.mp hx
    cases e with
    | payment p => rfl
    | exitCompleted m => rfl
    | deposit a' i' d' t' =>
      by_cases heq : t' = t
      · subst heq
        obtain ⟨mid, rest, rfl⟩ := List.append_of_mem he
        have hlater := hbooked.settled (before ++ .deposit a i d t' :: mid) a' i' d' rest (by simp)
        simp only [Contract.paidFor_append, Contract.paidFor_cons, Contract.depositedFor_append,
          Contract.depositedFor_cons, Contract.Event.paidFor, Contract.Event.depositedFor,
          if_true] at hlater hpaid htotal ⊢
        omega
      · exact if_neg heq
  rw [hafter] at htotal
  exact UInt64.toNat_inj.mp (by omega)

/-! ## What the node does -/

/-- A submission that puts the transaction into the pool. -/
inductive Adds (C : Crypto) : BackendOp → Transaction → Prop where
  | deposit {t : Plasma.TokenInfo} {tx : Transaction}
      (h : (depositTransaction C t).signByOperator C = .ok tx) : Adds C (.deposit t) tx
  | send {tx : Transaction} (h : validateTx C tx.fillBalance = .ok ()) :
      Adds C (.send tx) tx.fillBalance

/-- The chain is as it was, and what is new in the pool was submitted. -/
structure Kept (C : Crypto) (bop : BackendOp) (n n' : Node) : Prop where
  currentBlock : n'.currentBlock = n.currentBlock
  blockNumber : n'.blockNumber = n.blockNumber
  chain : n'.chain = n.chain
  pool : ∀ tx ∈ n'.pool.txpool, tx ∈ n.pool.txpool ∨ Adds C bop tx

/-- A call of the node makes a block, or keeps the chain. -/
theorem backend_step_cases {b b' : Backend} {bop : BackendOp} (hok : b.Ok C)
    (h : b.step C bop = .ok b') : Kept C bop b.node b'.node ∨ Minted C b.node b'.node := by
  cases bop with
  | deposit t =>
    obtain rfl := Except.ok.inj h
    refine .inl ?_
    change Kept C (.deposit t) b.node (Plasma.processDeposit C t b.node)
    unfold Plasma.processDeposit
    split
    · exact ⟨rfl, rfl, rfl, fun tx htx => .inl htx⟩
    · rename_i tx hsign
      refine ⟨rfl, rfl, rfl, fun tx' htx' => ?_⟩
      rcases Plasma.Pool.mem_addTransaction htx' with htx' | rfl
      · exact .inl htx'
      · exact .inr (.deposit hsign)
  | send tx =>
    obtain rfl := Except.ok.inj h
    refine .inl ?_
    change Kept C (.send tx) b.node (Plasma.sendPlasmaTransaction C tx b.node)
    unfold Plasma.sendPlasmaTransaction
    split
    · exact ⟨rfl, rfl, rfl, fun tx htx => .inl htx⟩
    · rename_i hvalid
      refine ⟨rfl, rfl, rfl, fun tx' htx' => ?_⟩
      rcases Plasma.Pool.mem_addTransaction htx' with htx' | rfl
      · exact .inl htx'
      · exact .inr (.send hvalid)
  | sendAnchor tx a r =>
    obtain ⟨op', hop', hs', -⟩ := Backend.step_submission h nofun
    obtain ⟨hblock, hnumber, hchain, -⟩ := Plasma.step_pool hs' hop'
    obtain rfl := Except.ok.inj h
    refine .inl ⟨hblock, hnumber, hchain, fun tx' htx' => .inl ?_⟩
    change tx' ∈ (Plasma.sendAnchorTransaction C tx a r b.node).pool.txpool at htx'
    rwa [Plasma.txpool_sendAnchorTransaction] at htx'
  | mint c x fault =>
    rcases Backend.mint_cases h with hu | ⟨m, tree, trees, hs⟩
    · exact .inl ⟨hu.node.currentBlock, hu.node.blockNumber, hu.node.chain,
        fun tx htx => .inl (hu.node.pool tx htx)⟩
    · obtain ⟨T', hm⟩ := hs.mints
      exact .inr (hm.minted hok.checked)

/-- The record of a token has the denomination of all its transactions. -/
def Denominated (n : Node) : Prop :=
  ∀ tokenID t, n.currentBlock.tries.tokens.lookup tokenID = some t →
    ∀ e ∈ included tokenID n.chain, e.2.denomination = t.denomination

section
variable {n n' : Node}

/-- A call without a block keeps the chain. -/
theorem chainInv_kept {bop : BackendOp} (hi : ChainInv C n) (hkept : Kept C bop n n') :
    ChainInv C n' where
  blockNumber := by rw [hkept.blockNumber, hkept.currentBlock, hi.blockNumber]
  last := by rw [hkept.chain, hkept.currentBlock, hi.last]
  numbers := by rw [hkept.chain, hkept.currentBlock, hi.numbers]
  history := by
    rw [hkept.chain, hkept.currentBlock]
    exact hi.history
  authorised := by
    rw [hkept.chain]
    exact hi.authorised

/-- A new block keeps it as well. -/
theorem chainInv_minted (hi : ChainInv C n) (hp : n.PoolChecked C) (hm : Minted C n n') :
    ChainInv C n' := by
  refine ⟨hm.blockNumber, ?_, ?_, hm.history hi, ?_⟩
  · rw [hm.chain, List.getLast?_concat]
  · rw [hm.chain, List.map_append, hi.numbers, List.map_singleton, hm.number, ← List.range_succ]
  · rw [hm.chain]
    refine hi.authorised.concat fun b hb => ?_
    obtain rfl := Option.some.inj (hi.last.symm.trans hb)
    exact hm.authorised hp

theorem denominated_minted (hi : ChainInv C n) (hd : Denominated n) (hm : Minted C n n') :
    Denominated n' := by
  intro tokenID t ht
  rw [hm.chain, Plasma.included_concat]
  rcases hm.cases tokenID with ⟨hnil, hsame⟩ | ⟨tx, t₀, hone, rfl, hf, hrecord⟩
  · rw [hnil, List.map_nil, List.append_nil]
    exact hd tokenID t (hsame ▸ ht)
  · obtain rfl := Option.some.inj (hrecord.symm.trans ht)
    rw [hone, List.map_singleton, Plasma.tokenRecord_denomination]
    intro e he
    rw [List.mem_append, List.mem_singleton] at he
    -- a deposit is the first transaction; a transfer states the denomination of the record
    unfold Finds at hf
    split_ifs at hf with h0
    · rw [(hi.history tx.tokenID).eq_nil hf.1] at he
      rcases he with he | rfl
      · cases he
      · rw [hf.2]
        rfl
    · rcases he with he | rfl
      · exact hd tx.tokenID t₀ hf.1 e he
      · exact (Plasma.amounts_of_transferError hf.2).1.symm

end

/-! ## Runs -/

/-- The contract has shown the deposit of the transaction. -/
def Shown (log : List Event) (tx : Transaction) : Prop :=
  ∃ t, .deposit tx.recipient tx.depositIndex tx.denomination t ∈ log

/-- The operator signs deposits that the contract has shown, and no others. -/
def Unforged (C : Crypto) (s : System) : SystemOp → Prop
  | .node (.send tx) _ => tx.prevBlock = 0 → tx.getSigner C = .ok C.operatorAddr →
      ∃ a i d t, .deposit a i d t ∈ s.log ∧
        tx.fields [] = (depositTransaction C ⟨i, d, a⟩).fields []
  | _ => True

/-- What holds of the tokens of the child chain. -/
structure Backs (C : Crypto) (s : System) : Prop where
  chain : ChainInv C s.backend.node
  denominated : Denominated s.backend.node
  pool : ∀ tx ∈ s.backend.node.pool.txpool, tx.prevBlock = 0 → Shown s.log tx
  blocks : ∀ b ∈ s.backend.node.chain, ∀ tx ∈ b.transactions, tx.prevBlock = 0 →
    Shown s.log tx ∧ tokenKey C tx.depositIndex tx.denomination tx.recipient = tx.tokenID

/-- At the start there are no tokens. -/
theorem Started.backs (h : Started C E s) : Backs C s := by
  have hnode : s.backend.node = newNode := by
    rw [h.backend]
    rfl
  refine ⟨?_, ?_, ?_, ?_⟩
  · rw [hnode]
    exact Plasma.chainInv_new C
  · rw [hnode]
    intro tokenID t ht
    cases ht
  · rw [hnode]
    exact fun tx htx => by cases htx
  · rw [hnode]
    intro b hb tx htx
    rw [List.mem_singleton.mp hb] at htx
    cases htx

theorem Shown.append {tx : Transaction} (h : Shown log tx) (shown : List Event) :
    Shown (log ++ shown) tx := by
  obtain ⟨t, ht⟩ := h
  exact ⟨t, List.mem_append_left _ ht⟩

/-- What is signed of two transactions tells where their deposits come from. -/
theorem shown_of_fields {tx tx' : Transaction} {sig : Bytes} {t : UInt64}
    (h : tx.fields sig = tx'.fields sig)
    (ht : .deposit tx'.recipient tx'.depositIndex tx'.denomination t ∈ log) : Shown log tx := by
  simp only [Transaction.fields, List.cons.injEq, Rlp.Item.str.injEq] at h
  obtain ⟨-, hdenomination, hindex, -, -, hrecipient, -⟩ := h
  refine ⟨t, ?_⟩
  rw [UInt64.toNat_inj.mp (Rlp.uint_inj hdenomination), UInt64.toNat_inj.mp (Rlp.uint_inj hindex),
    Subtype.ext hrecipient]
  exact ht

/-- A deposit is accepted with the signature of the operator only. -/
theorem signer_of_validateTx {tx : Transaction} (h : validateTx C tx = .ok ())
    (h0 : tx.prevBlock = 0) : tx.getSigner C = .ok C.operatorAddr := by
  unfold validateTx at h
  rcases hsig : tx.validateSig C with e | _
  · rw [hsig] at h
    cases h
  · rcases hsigner : tx.getSigner C with e | signer
    · simp [hsig, h0, hsigner, bind, Except.bind] at h
    · simp only [hsig, h0, hsigner, bind, Except.bind, if_true] at h
      split_ifs at h with hne
      rw [not_not.mp hne]

theorem fields_fillBalance (tx : Transaction) (sig : Bytes) :
    tx.fillBalance.fields sig = tx.fields sig := by
  unfold Transaction.fillBalance
  split_ifs
  · rfl
  · rfl

theorem getSigner_fillBalance (tx : Transaction) :
    tx.fillBalance.getSigner C = tx.getSigner C := by
  unfold Transaction.fillBalance
  split_ifs
  · rfl
  · rfl

theorem prevBlock_fillBalance (tx : Transaction) : tx.fillBalance.prevBlock = tx.prevBlock := by
  unfold Transaction.fillBalance
  split_ifs
  · rfl
  · rfl

/-- A deposit that is put into the pool was shown. -/
theorem shown_of_adds {bop : BackendOp} (hop : CallsNode s op bop) (hhonest : Honest C op)
    (hforged : Unforged C s op) {tx : Transaction} (h : Adds C bop tx) (h0 : tx.prevBlock = 0) :
    Shown s.log tx := by
  cases h with
  | deposit hsign =>
    cases hop with
    | node => cases hhonest
    | event hevent =>
      obtain ⟨sig, rfl⟩ := Plasma.eq_of_signByOperator hsign
      exact ⟨_, List.mem_of_getElem? hevent⟩
  | @send tx hvalid =>
    cases hop
    have hsigner := signer_of_validateTx hvalid h0
    rw [getSigner_fillBalance] at hsigner
    rw [prevBlock_fillBalance] at h0
    obtain ⟨a, i, d, t, ht, hfields⟩ := hforged h0 hsigner
    exact shown_of_fields ((fields_fillBalance tx []).trans hfields) ht

/-- A call of the node keeps every token backed. -/
theorem Backs.called {bop : BackendOp} {b : Backend} {sent : List Submission} (h : Backs C s)
    (hok : s.Ok C E) (hop : CallsNode s op bop) (hhonest : Honest C op)
    (hforged : Unforged C s op) (hstep : s.backend.step C bop = .ok b) :
    Backs C { s with backend := b, sent := sent } := by
  rcases backend_step_cases hok.backend hstep with hkept | hm
  · refine ⟨chainInv_kept h.chain hkept, ?_, ?_, ?_⟩
    · change Denominated b.node
      unfold Denominated
      rw [hkept.chain, hkept.currentBlock]
      exact h.denominated
    · intro tx htx h0
      rcases hkept.pool tx htx with htx | hadds
      · exact h.pool tx htx h0
      · exact shown_of_adds hop hhonest hforged hadds h0
    · change ∀ x ∈ b.node.chain, _
      rw [hkept.chain]
      exact h.blocks
  · refine ⟨chainInv_minted h.chain hok.backend.checked hm,
      denominated_minted h.chain h.denominated hm, fun tx htx => h.pool tx (hm.pool tx htx), ?_⟩
    change ∀ x ∈ b.node.chain, _
    rw [hm.chain]
    intro x hx
    rcases List.mem_append.mp hx with hx | hx
    · exact h.blocks x hx
    · rw [List.mem_singleton.mp hx]
      intro tx htx h0
      have hpool := hm.body tx htx
      exact ⟨h.pool tx hpool h0, (hok.backend.checked tx hpool).deposit h0⟩

/-- So does every step of the system. -/
theorem Backs.change (h : Backs C s) (hok : s.Ok C E) (hhonest : Honest C op)
    (hforged : Unforged C s op) (hc : Change C E s op s') : Backs C s' := by
  cases hc with
  | same => exact h
  | called hop hstep _ => exact h.called hok hop hhonest hforged hstep
  | made hop hstep _ _ => exact h.called hok hop hhonest hforged hstep
  | executed _ _ _ =>
    exact ⟨h.chain, h.denominated, fun tx htx h0 => (h.pool tx htx h0).append _,
      fun b hb tx htx h0 => ⟨(h.blocks b hb tx htx h0).1.append _, (h.blocks b hb tx htx h0).2⟩⟩
  | failed _ _ _ => exact ⟨h.chain, h.denominated, h.pool, h.blocks⟩

/-- And so does every run. -/
theorem Steps.backs (h : Steps C E (fun s op => Honest C op ∧ Unforged C s op) s s')
    (hok : s.Ok C E) (hb : Backs C s) : Backs C s' := by
  induction h with
  | refl => exact hb
  | step op hrun hp hs ih => exact ih.change (hrun.ok hok) hp.1 hp.2 (step_change hs)

/-! ## Results -/

/-- The denomination of a token of the child chain, if there is one. -/
def denominationOf (n : Node) (t : UInt64) : ℕ :=
  ((n.currentBlock.tries.tokens.lookup t).map fun r => r.denomination.toNat).getD 0

/-- The deposit of a token of the child chain. -/
theorem Backs.deposit (h : Backs C s) (hok : s.Ok C E) (hk : E.keccak = C.keccak) {t : UInt64}
    {r : Token} (ht : s.backend.node.currentBlock.tries.tokens.lookup t = some r) :
    ∃ e, (included t s.backend.node.chain)[0]? = some e ∧
      .deposit e.2.recipient e.2.depositIndex r.denomination t ∈ s.log := by
  have hi := h.chain.history t
  -- there is a record, so there is a first transaction
  obtain ⟨e, he⟩ : ∃ e, (included t s.backend.node.chain)[0]? = some e := by
    rcases hl : included t s.backend.node.chain with _ | ⟨e, rest⟩
    · have hends := hi.ends
      rw [hl, ht] at hends
      cases hends
    · exact ⟨e, rfl⟩
  have hmem := List.mem_of_getElem? he
  obtain ⟨b, hb, hmap⟩ := List.mem_flatMap.mp hmem
  obtain ⟨tx, htx, rfl⟩ := List.mem_map.mp hmap
  have htoken : tx.tokenID = t := by simpa using (List.mem_filter.mp htx).2
  have h0 : tx.prevBlock = 0 := hi.linked.first _ he
  obtain ⟨⟨t', ht'⟩, hkey⟩ := h.blocks b hb tx (List.mem_of_mem_filter htx) h0
  have heq : t' = t := by
    rw [(token_of_deposit hok.run ht').1, Contract.tokenHash_eq hk, hkey, htoken]
  rw [heq, h.denominated t r ht _ hmem] at ht'
  exact ⟨_, he, ht'⟩

section
variable {s₀ : System} (hk : E.keccak = C.keccak) (hstart : Started C E s₀)
  (h : Steps C E (fun s op => Honest C op ∧ Unforged C s op) s₀ s)
include hk hstart h

/-- Every token of the child chain was deposited in the contract with its denomination, by the
recipient of its first transaction, and the contract holds the denomination as long as nothing was
paid for the token. -/
theorem tokens_backed {t : UInt64} {r : Token}
    (ht : s.backend.node.currentBlock.tries.tokens.lookup t = some r) :
    (∃ e, (included t s.backend.node.chain)[0]? = some e ∧ e.2.prevBlock = 0 ∧
      .deposit e.2.recipient e.2.depositIndex r.denomination t ∈ s.log) ∧
    (paidFor t s.log = 0 → s.contract.depositBalance t = r.denomination) := by
  have hok := h.ok hstart.ok
  have hbacks := h.backs hstart.ok hstart.backs
  obtain ⟨e, he, hdeposit⟩ := hbacks.deposit hok hk ht
  exact ⟨⟨e, he, (hbacks.chain.history t).linked.first e he, hdeposit⟩,
    balance_of_deposit hok.run hdeposit⟩

end

/-- The steps of a run without submissions need no condition on signatures. -/
theorem unforged_depositBlock (client : Client) (s : System) :
    ∀ op ∈ depositBlock client,
      Honest smallCrypto op ∧ Unforged smallCrypto s op := by
  simp [depositBlock, Honest, Unforged]

/-- The deposit of the operator is minted. -/
theorem tokens_backed_deposit : ∃ s₀ s r, Started smallCrypto smallEvm s₀ ∧
    Steps smallCrypto smallEvm (fun s op => Honest smallCrypto op ∧
      Unforged smallCrypto s op) s₀ s ∧
    s.backend.node.currentBlock.tries.tokens.lookup smallDeposit.tokenID = some r ∧
    s.contract.depositBalance smallDeposit.tokenID = r.denomination := by
  obtain ⟨s₀, s, hstart, hrun, hsome, hpaid⟩ := exists_steps smallCrypto smallEvm _
    (depositBlock ⟨true, true⟩)
    (fun s => (s.backend.node.currentBlock.tries.tokens.lookup
        smallDeposit.tokenID).isSome ∧
      paidFor smallDeposit.tokenID s.log = 0)
    (unforged_depositBlock ⟨true, true⟩) (by decide +kernel)
  obtain ⟨r, hr⟩ := Option.isSome_iff_exists.mp hsome
  exact ⟨s₀, s, r, hstart, hrun, hr, (tokens_backed rfl hstart hrun hr).2 hpaid⟩

section
variable {s₀ : System} (hk : E.keccak = C.keccak) (hstart : Started C E s₀)
  (h : Steps C E (fun s op => Honest C op ∧ Unforged C s op) s₀ s)
include hk hstart h

/-- The ether of the contract covers the denominations of all tokens of the child chain for which
nothing was paid. -/
theorem supply_covered (T : Finset UInt64) (hT : ∀ t ∈ T, paidFor t s.log = 0) :
    ∑ t ∈ T, denominationOf s.backend.node t ≤ s.contract.ether := by
  have hok := h.ok hstart.ok
  have hbacks := h.backs hstart.ok hstart.backs
  have hle : ∀ t ∈ T, denominationOf s.backend.node t ≤ (s.contract.depositBalance t).toNat := by
    intro t htT
    unfold denominationOf
    cases ht : s.backend.node.currentBlock.tries.tokens.lookup t with
    | none => exact Nat.zero_le _
    | some r =>
      obtain ⟨e, -, hdeposit⟩ := hbacks.deposit hok hk ht
      rw [balance_of_deposit hok.run hdeposit (hT t htT)]
      exact le_rfl
  calc ∑ t ∈ T, denominationOf s.backend.node t
      ≤ ∑ t ∈ T, (s.contract.depositBalance t).toNat := Finset.sum_le_sum hle
    _ ≤ s.contract.ether := hok.run.solvent T

end

/-- The deposit of 5 is covered. -/
theorem supply_covered_deposit : ∃ s₀ s, Started smallCrypto smallEvm s₀ ∧
    Steps smallCrypto smallEvm (fun s op => Honest smallCrypto op ∧
      Unforged smallCrypto s op) s₀ s ∧
    denominationOf s.backend.node smallDeposit.tokenID = 5 ∧
    ∑ t ∈ {smallDeposit.tokenID}, denominationOf s.backend.node t ≤ s.contract.ether := by
  obtain ⟨s₀, s, hstart, hrun, hfive, hpaid⟩ := exists_steps smallCrypto smallEvm _
    (depositBlock ⟨true, true⟩)
    (fun s => denominationOf s.backend.node smallDeposit.tokenID = 5 ∧
      paidFor smallDeposit.tokenID s.log = 0)
    (unforged_depositBlock ⟨true, true⟩) (by decide +kernel)
  refine ⟨s₀, s, hstart, hrun, hfive, supply_covered rfl hstart hrun _ fun t ht => ?_⟩
  rw [Finset.mem_singleton.mp ht]
  exact hpaid

end GoPlasma.Bridge
