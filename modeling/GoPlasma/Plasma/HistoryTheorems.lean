import GoPlasma.Plasma.MintTheorems
import GoPlasma.Lib.ListRel

/-!
# The history of a token

Over any run of the node, the transactions that the blocks hold for a token form one linked
history: it begins with the deposit, each later transaction names the block and the recipient of
the one before it, and the record of the token is the end of it. Two consequences: the owner of a
token changes only by a transaction that the owner has signed, and no transaction is in two blocks.
-/

namespace GoPlasma.Plasma

open ListRel

variable {C : Crypto} {s s' : Node} {tx : Transaction} {n : ℕ} {T : Tries}

/-! ## Histories -/

/-- The transactions for a token, with the numbers of their blocks. -/
def included (tokenID : UInt64) (chain : List Block) : List (ℕ × Transaction) :=
  chain.flatMap fun b => (forToken tokenID b.transactions).map fun tx => (b.number, tx)

/-- The transactions of a token are linked. -/
structure Linked (h : List (ℕ × Transaction)) : Prop where
  increasing : h.Pairwise fun e e' => e.1 < e'.1
  first : ∀ e, h[0]? = some e → e.2.prevBlock = 0
  next : Neighbours (fun e e' => e'.2.prevBlock.toNat = e.1 ∧ e'.2.prevOwner = e.2.recipient) h

/-- The record of the token is the end of its history. -/
def EndsIn (h : List (ℕ × Transaction)) (t : Option Token) : Prop :=
  match h.getLast? with
  | none => t = none
  | some e => ∃ r, t = some r ∧ r.prevBlock = e.1 ∧ r.owner = e.2.recipient

/-! ## The record after a transaction -/

theorem consumed_owner (tx : Transaction) (t : Token) : (consumed tx t).owner = t.owner := by
  unfold consumed
  split_ifs
  · rfl
  · rfl

theorem withdrawn_owner (tx : Transaction) (t : Token) : (withdrawn tx t).owner = t.owner := by
  unfold withdrawn
  split_ifs
  · rfl
  · rfl

/-- After a transaction its recipient owns the token. -/
theorem tokenRecord_owner {t : Token} (h : Finds T tx t) :
    (tokenRecord n tx t).owner = tx.recipient := by
  change (tokenAfter tx t).owner = tx.recipient
  unfold tokenAfter
  split_ifs with h0
  · rw [Finds, if_pos h0] at h
    rw [h.2]
    rfl
  · rw [newToken, consumed_owner, withdrawn_owner]

/-- A transfer names the block of the record, unless that is block 0. -/
theorem prevBlock_of_transferError {sobj : TokenObject} (h : transferError tx sobj = none)
    (hb : sobj.token.prevBlock ≠ 0) : tx.prevBlock.toNat = sobj.token.prevBlock := by
  by_contra hne
  have hne' : sobj.token.prevBlock ≠ tx.prevBlock.toNat := fun h' => hne h'.symm
  simp only [transferError] at h
  rw [if_neg (fun h' => hb h'.2.1), if_pos ⟨hne', hb⟩] at h
  cases h

/-! ## One more block -/

/-- The only transaction of a list for a token. -/
theorem mem_of_forToken {tokenID : UInt64} {txs : List Transaction}
    (h : forToken tokenID txs = [tx]) : tx ∈ txs ∧ tx.tokenID = tokenID := by
  have hmem : tx ∈ forToken tokenID txs := by simp [h]
  simpa [forToken] using hmem

theorem Minted.cases (h : Minted C s s') (tokenID : UInt64) :
    (forToken tokenID s'.currentBlock.transactions = [] ∧
      s'.currentBlock.tries.tokens.lookup tokenID =
        s.currentBlock.tries.tokens.lookup tokenID) ∨
    ∃ tx t, forToken tokenID s'.currentBlock.transactions = [tx] ∧
      tx.tokenID = tokenID ∧ Finds s.currentBlock.tries tx t ∧
      s'.currentBlock.tries.tokens.lookup tokenID = some (tokenRecord s.blockNumber tx t) := by
  rcases h.tokens tokenID with hn | ⟨tx, t, hone, hf, -, ht, -⟩
  · exact .inl hn
  · exact .inr ⟨tx, t, hone, (mem_of_forToken hone).2, hf, ht⟩

theorem included_concat (tokenID : UInt64) (chain : List Block) (b : Block) :
    included tokenID (chain ++ [b]) =
      included tokenID chain ++ (forToken tokenID b.transactions).map fun tx => (b.number, tx) := by
  simp [included]

/-- The state of a token's history in a chain whose newest block has number `n`. -/
structure HistoryInv (n : ℕ) (h : List (ℕ × Transaction)) (t : Option Token) : Prop where
  linked : Linked h
  ends : EndsIn h t
  bounds : ∀ e ∈ h, 0 < e.1 ∧ e.1 ≤ n
  /-- Each transaction is in a later block than the one it names. -/
  names : ∀ e ∈ h, e.2.prevBlock.toNat < e.1
  /-- Later transactions name later blocks. -/
  later : h.Pairwise fun e e' => e.1 ≤ e'.2.prevBlock.toNat

theorem HistoryInv.mono {m : ℕ} {h : List (ℕ × Transaction)} {t : Option Token}
    (hi : HistoryInv n h t) (hm : n ≤ m) : HistoryInv m h t :=
  { hi with bounds := fun e he => ⟨(hi.bounds e he).1, (hi.bounds e he).2.trans hm⟩ }

theorem HistoryInv.nil (n : ℕ) : HistoryInv n [] none where
  linked := ⟨.nil, by simp, by simp [Neighbours]⟩
  ends := rfl
  bounds e he := by cases he
  names e he := by cases he
  later := .nil

/-- A token without a record has no history. -/
theorem HistoryInv.eq_nil {h : List (ℕ × Transaction)} {t : Option Token} (hi : HistoryInv n h t)
    (ht : t = none) : h = [] := by
  have he := hi.ends
  unfold EndsIn at he
  rcases hl : h.getLast? with _ | e
  · exact List.getLast?_eq_none_iff.mp hl
  · rw [hl, ht] at he
    obtain ⟨r', hr', -⟩ := he
    cases hr'

/-- A block with a deposit of the token. -/
theorem HistoryInv.deposit {h : List (ℕ × Transaction)} {r : Token} (hi : HistoryInv n h none)
    (h0 : tx.prevBlock = 0) (hr : r.prevBlock = n + 1) (ho : r.owner = tx.recipient) :
    HistoryInv (n + 1) (h ++ [(n + 1, tx)]) (some r) := by
  have hnil := hi.eq_nil rfl
  subst hnil
  have hzero : tx.prevBlock.toNat = 0 := by rw [h0]; rfl
  refine ⟨⟨by simp, ?_, ?_⟩, ⟨r, rfl, hr, ho⟩, by simp, by simp [hzero], by simp⟩
  · rintro e ⟨⟩
    exact h0
  · intro i a a' _ ha'
    cases i <;> cases ha'

/-- A block with a transfer of the token. -/
theorem HistoryInv.transfer {h : List (ℕ × Transaction)} {t r : Token}
    (hi : HistoryInv n h (some t)) (he : transferError tx ⟨t, false⟩ = none)
    (hr : r.prevBlock = n + 1) (ho : r.owner = tx.recipient) :
    HistoryInv (n + 1) (h ++ [(n + 1, tx)]) (some r) := by
  -- the record is the end of the history, and the transfer is checked against it
  obtain ⟨e, hlast, hblock, howner⟩ :
      ∃ e, h.getLast? = some e ∧ t.prevBlock = e.1 ∧ t.owner = e.2.recipient := by
    have hends := hi.ends
    unfold EndsIn at hends
    rcases hl : h.getLast? with _ | e
    · rw [hl] at hends
      cases hends
    · rw [hl] at hends
      obtain ⟨r', hr', hb, hw⟩ := hends
      cases hr'
      exact ⟨e, rfl, hb, hw⟩
  have hmem : e ∈ h := List.mem_of_getLast? hlast
  have hpos := (hi.bounds e hmem).1
  have hnamed : tx.prevBlock.toNat = e.1 := by
    rw [← hblock]
    exact prevBlock_of_transferError he (by rw [hblock]; omega)
  have hle : ∀ e' ∈ h, e'.1 ≤ e.1 := by
    intro e' he'
    obtain ⟨l, rfl⟩ := List.getLast?_eq_some_iff.mp hlast
    rcases List.mem_append.mp he' with hl | hl
    · exact le_of_lt ((List.pairwise_append.mp hi.linked.increasing).2.2 e' hl e (by simp))
    · rw [List.mem_singleton.mp hl]
  refine ⟨⟨?_, ?_, hi.linked.next.concat ?_⟩, ?_, ?_, ?_, ?_⟩
  · refine List.pairwise_append.mpr ⟨hi.linked.increasing, by simp, ?_⟩
    intro e' he' x hx
    rw [List.mem_singleton.mp hx]
    exact Nat.lt_succ_of_le (hi.bounds e' he').2
  · intro e' he'
    have hne : h ≠ [] := List.ne_nil_of_mem hmem
    rw [List.getElem?_append_left (List.length_pos_of_ne_nil hne)] at he'
    exact hi.linked.first e' he'
  · intro e' he'
    rw [hlast] at he'
    obtain rfl := Option.some.inj he'
    refine ⟨hnamed, ?_⟩
    rw [← howner]
    exact (owner_of_transferError he).symm
  · unfold EndsIn
    rw [List.getLast?_concat]
    exact ⟨r, rfl, hr, ho⟩
  · intro e' he'
    rcases List.mem_append.mp he' with hl | hl
    · exact ⟨(hi.bounds e' hl).1, (hi.bounds e' hl).2.trans (Nat.le_succ n)⟩
    · rw [List.mem_singleton.mp hl]
      exact ⟨Nat.succ_pos n, le_refl _⟩
  · intro e' he'
    rcases List.mem_append.mp he' with hl | hl
    · exact hi.names e' hl
    · rw [List.mem_singleton.mp hl]
      have := (hi.bounds e hmem).2
      change tx.prevBlock.toNat < n + 1
      omega
  · refine List.pairwise_append.mpr ⟨hi.later, by simp, ?_⟩
    intro e' he' x hx
    rw [List.mem_singleton.mp hx]
    change e'.1 ≤ tx.prevBlock.toNat
    rw [hnamed]
    exact hle e' he'

/-- Transactions that name the same block are in the same block. -/
theorem HistoryInv.unique {h : List (ℕ × Transaction)} {t : Option Token} (hi : HistoryInv n h t)
    {e e' : ℕ × Transaction} (he : e ∈ h) (he' : e' ∈ h)
    (hp : e.2.prevBlock = e'.2.prevBlock) : e.1 = e'.1 := by
  let R : ℕ × Transaction → ℕ × Transaction → Prop :=
    fun e e' => e.2.prevBlock = e'.2.prevBlock → e.1 = e'.1
  have hsymm : Std.Symm R := ⟨fun _ _ h heq => (h heq.symm).symm⟩
  have hpw : h.Pairwise R := by
    refine hi.later.imp_of_mem fun {a b} ha _ hab heq => ?_
    have := hi.names a ha
    rw [heq] at this
    omega
  exact hpw.forall_of_forall (fun _ _ _ => rfl) he he' hp

/-! ## The chain -/

/-- Where the owner of a token changes from one block to the next, the new block has one
transaction for the token, and the old owner has signed it. -/
def Authorised (C : Crypto) (b b' : Block) : Prop :=
  ∀ tokenID t, b.tries.tokens.lookup tokenID = some t →
    (b'.tries.tokens.lookup tokenID).map Token.owner ≠ some t.owner →
    ∃ tx, forToken tokenID b'.transactions = [tx] ∧ tx.prevOwner = t.owner ∧
      tx.getSigner C = .ok t.owner

/-- The invariant of the chain. -/
structure ChainInv (C : Crypto) (s : Node) : Prop where
  blockNumber : s.blockNumber = s.currentBlock.number
  last : s.chain.getLast? = some s.currentBlock
  numbers : s.chain.map Block.number = List.range (s.currentBlock.number + 1)
  history : ∀ tokenID, HistoryInv s.currentBlock.number (included tokenID s.chain)
    (s.currentBlock.tries.tokens.lookup tokenID)
  authorised : Neighbours (Authorised C) s.chain

theorem chainInv_new (C : Crypto) : ChainInv C newNode where
  blockNumber := rfl
  last := rfl
  numbers := rfl
  history _ := HistoryInv.nil 0
  authorised := by
    intro i b b' _ hb'
    cases hb'

/-- A minted block is authorised. -/
theorem Minted.authorised (h : Minted C s s') (hp : s.PoolChecked C) :
    Authorised C s.currentBlock s'.currentBlock := by
  intro tokenID t ht hne
  rcases h.cases tokenID with ⟨-, hsame⟩ | ⟨tx, t', hone, rfl, hf, -⟩
  · rw [hsame, ht] at hne
    exact absurd rfl hne
  · by_cases h0 : tx.prevBlock = 0
    · -- a deposit finds no token
      rw [Finds, if_pos h0, ht] at hf
      cases hf.1
    · have howner := hf.owner h0
      rw [Finds, if_neg h0, ht] at hf
      obtain rfl := Option.some.inj hf.1
      refine ⟨tx, hone, howner.symm, ?_⟩
      rw [howner]
      exact (hp tx (h.body tx (mem_of_forToken hone).1)).signer h0

/-- A minted block continues the history of each token. -/
theorem Minted.history (h : Minted C s s') (hi : ChainInv C s) (tokenID : UInt64) :
    HistoryInv s'.currentBlock.number (included tokenID s'.chain)
      (s'.currentBlock.tries.tokens.lookup tokenID) := by
  have hold := hi.history tokenID
  rw [h.chain, included_concat, h.number]
  rcases h.cases tokenID with ⟨hnil, hsame⟩ | ⟨tx, t, hone, rfl, hf, ht⟩
  · rw [hnil, hsame, List.map_nil, List.append_nil]
    exact hold.mono (Nat.le_succ _)
  · have howner : (tokenRecord s.blockNumber tx t).owner = tx.recipient := tokenRecord_owner hf
    have hblock : (tokenRecord s.blockNumber tx t).prevBlock = s.currentBlock.number + 1 := by
      rw [← hi.blockNumber]
      rfl
    rw [hone, ht]
    by_cases h0 : tx.prevBlock = 0
    · rw [Finds, if_pos h0] at hf
      rw [hf.1] at hold
      exact hold.deposit h0 hblock howner
    · rw [Finds, if_neg h0] at hf
      rw [hf.1] at hold
      exact hold.transfer hf.2 hblock howner

theorem ChainInv.step {op : Op} (hi : ChainInv C s) (hp : s.PoolChecked C)
    (h : step C s op = .ok s') : ChainInv C s' := by
  rcases (step_cases h hp).2 with ⟨hb, hn, hc⟩ | hm
  · exact ⟨by rw [hn, hb, hi.blockNumber], by rw [hc, hb, hi.last], by rw [hc, hb, hi.numbers],
      by rw [hc, hb]; exact hi.history, by rw [hc]; exact hi.authorised⟩
  · refine ⟨hm.blockNumber, ?_, ?_, hm.history hi, ?_⟩
    · rw [hm.chain, List.getLast?_concat]
    · rw [hm.chain, List.map_append, hi.numbers, List.map_singleton, hm.number,
        ← List.range_succ]
    · rw [hm.chain]
      refine hi.authorised.concat fun b hb => ?_
      rw [hi.last] at hb
      obtain rfl := Option.some.inj hb
      exact hm.authorised hp

theorem RunWith.chainInv {P : Node → Op → Prop} (h : RunWith C P s) : ChainInv C s := by
  induction h with
  | new => exact chainInv_new C
  | step op hrun _ hs ih => exact ih.step hrun.poolChecked hs

/-- The run rule for two blocks, one after the other: what each mint establishes holds of all
neighbours in the chain. -/
theorem RunWith.neighbours {P : Node → Op → Prop} {R : Block → Block → Prop} (h : RunWith C P s)
    (hR : ∀ {s s' : Node} {c : MintChoice} {m : Minting Unit} {T' : Tries}, RunWith C P s →
      P s (.mint c) → Mints C c s s' m T' → R s.currentBlock s'.currentBlock) :
    Neighbours R s.chain := by
  induction h with
  | new =>
    intro i b b' _ hb'
    cases hb'
  | @step s s' op hrun hp hs ih =>
    rcases step_block hs with ⟨-, -, hc⟩ | ⟨c, m, T', rfl, hm⟩
    · rw [hc]
      exact ih
    · rw [hm.chain]
      refine ih.concat fun b hb => ?_
      rw [hrun.chainInv.last] at hb
      obtain rfl := Option.some.inj hb
      exact hR hrun hp hm

theorem ChainInv.number_eq (hi : ChainInv C s) {i : ℕ} {b : Block} (hb : s.chain[i]? = some b) :
    b.number = i := by
  have hn : (s.chain.map Block.number)[i]? = some b.number := by
    rw [List.getElem?_map, hb]
    rfl
  rw [hi.numbers] at hn
  have hlt := (List.getElem?_eq_some_iff.mp hn).1
  rw [List.length_range] at hlt
  rw [List.getElem?_range hlt] at hn
  exact (Option.some.inj hn).symm

/-! ## The encoding of a transaction -/

/-- The encoding determines the token and the block that a transaction names. -/
theorem Transaction.bytes_inj {tx tx' : Transaction} (h : tx.bytes = tx'.bytes) :
    tx.tokenID = tx'.tokenID ∧ tx.prevBlock = tx'.prevBlock := by
  have hitem := Rlp.encode_inj tx.length_bytes_lt h
  simp only [Transaction.fields, Rlp.Item.list.injEq, List.cons.injEq] at hitem
  obtain ⟨hid, -, -, hprev, -⟩ := hitem
  exact ⟨UInt64.toNat_inj.mp (Rlp.uint_inj hid), UInt64.toNat_inj.mp (Rlp.uint_inj hprev)⟩

/-- Transactions with the same encoding are in the same block. -/
theorem ChainInv.no_replay (hi : ChainInv C s) {i j : ℕ} {b b' : Block} {tx tx' : Transaction}
    (hb : s.chain[i]? = some b) (hb' : s.chain[j]? = some b') (htx : tx ∈ b.transactions)
    (htx' : tx' ∈ b'.transactions) (h : tx.bytes = tx'.bytes) : i = j := by
  obtain ⟨hid, hprev⟩ := Transaction.bytes_inj h
  have hmem : ∀ {k : ℕ} {b : Block} {tx : Transaction}, s.chain[k]? = some b → tx ∈ b.transactions →
      (b.number, tx) ∈ included tx.tokenID s.chain := by
    intro k b tx hb htx
    refine List.mem_flatMap.mpr ⟨b, List.mem_of_getElem? hb, List.mem_map.mpr ⟨tx, ?_, rfl⟩⟩
    exact List.mem_filter.mpr ⟨htx, by simp⟩
  have he := hmem hb htx
  have he' := hmem hb' htx'
  rw [← hid] at he'
  have hnum := (hi.history tx.tokenID).unique he he' hprev
  rw [← hi.number_eq hb, ← hi.number_eq hb']
  exact hnum

/-! ## A deposit and a transfer in two blocks -/

/-- An address. -/
def oneAddress : Address := ⟨Bytes.zeros 19 ++ [1], by decide⟩

/-- A hash of which one byte depends on the input, with a signature scheme that recovers one key. -/
def byteCrypto : Crypto where
  keccak b := ⟨Bytes.zeros 31 ++ [1 + b[5]?.getD 0], by simp⟩
  ecrecover _ _ := .ok [4]
  operatorAddr := oneAddress
  operatorSign _ := .ok []

/-- A signature of 65 zero bytes. -/
def zeroSig : Slice := ⟨Bytes.zeros 65, by rw [Bytes.length_zeros]; norm_num⟩

/-- The deposit of token 1, as the operator signs it. -/
def oneDeposit : Transaction :=
  { depositTransaction byteCrypto ⟨0, 5, oneAddress⟩ with sig := zeroSig }

/-- The transfer of token 1 to the zero address. -/
def oneTransfer : Transaction :=
  { oneDeposit with prevBlock := 1, recipient := zeroAddress }

/-- The deposit of token 1 in the first block, its transfer in the second. -/
def twoBlocks : List Op :=
  [.deposit ⟨0, 5, oneAddress⟩, .mint ⟨[oneDeposit], [], ⟨[1], [oneAddress], []⟩⟩,
    .send oneTransfer, .mint ⟨[oneTransfer], [], ⟨[1], [oneAddress, zeroAddress], []⟩⟩]

set_option maxRecDepth 8000 in
theorem twoBlocks_exec : ∃ s, exec byteCrypto newNode twoBlocks = .ok s ∧
    (included 1 s.chain).map Prod.fst = [1, 2] ∧
    ∀ b ∈ s.chain, ∀ b' ∈ s.chain, ∀ tx ∈ b.transactions, ∀ tx' ∈ b'.transactions,
      byteCrypto.keccak tx.bytes = byteCrypto.keccak tx'.bytes → tx.bytes = tx'.bytes :=
  ⟨_, rfl, by decide +kernel, by decide +kernel⟩

/-! ## Results -/

/-- Over every run, the owner of a token changes only by one transaction of the next block, signed
by the old owner; and if the hash has no collisions among the transactions in the chain, no hash is
in two blocks. -/
theorem authorised_without_replay (h : Run C s) :
    (∀ (i : ℕ) (b b' : Block), s.chain[i]? = some b → s.chain[i + 1]? = some b' →
      Authorised C b b') ∧
    ((∀ b ∈ s.chain, ∀ b' ∈ s.chain, ∀ tx ∈ b.transactions, ∀ tx' ∈ b'.transactions,
        C.keccak tx.bytes = C.keccak tx'.bytes → tx.bytes = tx'.bytes) →
      ∀ (i j : ℕ) (b b' : Block) (tx tx' : Transaction), s.chain[i]? = some b →
        s.chain[j]? = some b' → tx ∈ b.transactions → tx' ∈ b'.transactions →
        tx.hash C = tx'.hash C → i = j) := by
  refine ⟨h.chainInv.authorised, ?_⟩
  intro hinj i j b b' tx tx' hb hb' htx htx' heq
  exact h.chainInv.no_replay hb hb' htx htx'
    (hinj b (List.mem_of_getElem? hb) b' (List.mem_of_getElem? hb') tx htx tx' htx' heq)

/-- The deposit and the transfer are authorised, and neither is replayed. -/
theorem authorised_without_replay_twoBlocks : ∃ s,
    exec byteCrypto newNode twoBlocks = .ok s ∧ (included 1 s.chain).map Prod.fst = [1, 2] ∧
    (∀ (i : ℕ) (b b' : Block), s.chain[i]? = some b → s.chain[i + 1]? = some b' →
      Authorised byteCrypto b b') ∧
    ∀ (i j : ℕ) (b b' : Block) (tx tx' : Transaction), s.chain[i]? = some b →
      s.chain[j]? = some b' → tx ∈ b.transactions → tx' ∈ b'.transactions →
      tx.hash byteCrypto = tx'.hash byteCrypto → i = j := by
  obtain ⟨s, hs, hblocks, hinj⟩ := twoBlocks_exec
  have hrun : Run byteCrypto s := Run.exec byteCrypto .new hs
  have h := authorised_without_replay hrun
  exact ⟨s, hs, hblocks, h.1, h.2 hinj⟩

/-- Over every run, the transactions of each token are linked, and the record of the token in the
current block is the end of its history. Token 0 is outside of what the maps can show: its row in
the tree would be read back as a subtree. -/
theorem token_history_linked (h : Run C s) (tokenID : UInt64) :
    Linked (included tokenID s.chain) ∧
      EndsIn (included tokenID s.chain) (s.currentBlock.tries.tokens.lookup tokenID) :=
  ⟨(h.chainInv.history tokenID).linked, (h.chainInv.history tokenID).ends⟩

/-- The deposit and the transfer are linked. -/
theorem token_history_linked_twoBlocks : ∃ s,
    exec byteCrypto newNode twoBlocks = .ok s ∧ (included 1 s.chain).map Prod.fst = [1, 2] ∧
    Linked (included 1 s.chain) ∧
    EndsIn (included 1 s.chain) (s.currentBlock.tries.tokens.lookup 1) := by
  obtain ⟨s, hs, hblocks, -⟩ := twoBlocks_exec
  have hrun : Run byteCrypto s := Run.exec byteCrypto .new hs
  exact ⟨s, hs, hblocks, token_history_linked hrun 1⟩

end GoPlasma.Plasma
