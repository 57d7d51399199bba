import GoPlasma.Plasma.AccountTheorems
import GoPlasma.Plasma.AnchorTheorems

/-!
# What a transfer leaves behind

The root chain pays on the transactions of a token, the child chain keeps a record of it.
`transfer_record`: the record that an accepted transfer leaves is the one that it states, except
that `Spent` of the record never goes down; the transfer may state less. `deposit_carried`: all
transactions of a token carry the denomination of its deposit. They carry its index only as far as
the senders put it there, because no record of the child chain has it.
-/

namespace GoPlasma.Plasma

variable {C : Crypto} {s s' : Node} {tx : Transaction} {t : Token} {n : ℕ} {T : Tries}

/-! ## The record of a token -/

/-- The record is the one that the transfer states, in the block after block `n`; the balance is the
`uint64` difference. -/
structure Stated (n : ℕ) (tx : Transaction) (r : Token) : Prop where
  owner : r.owner = tx.recipient
  balance : r.balance = tx.denomination - tx.allowance - tx.spent
  allowance : r.allowance = tx.allowance
  spent : r.spent = tx.spent
  prevBlock : r.prevBlock = n + 1

/-- The record takes all that the transfer states, unless that is less spent than before. -/
theorem stated_iff (h0 : tx.prevBlock ≠ 0) (h : T.tokens.lookup tx.tokenID = some t)
    (he : transferError tx ⟨t, false⟩ = none) :
      Stated n tx (tokenRecord n tx t) ↔ t.spent ≤ tx.spent := by
  obtain ⟨hold, hd, hsum⟩ := sums_of_transferError he
  have hrecord : tokenRecord n tx t = { newToken tx t with prevBlock := n + 1 } := by
    rw [tokenRecord, tokenAfter, if_neg h0]
  have hbalance : tx.balance = tx.denomination - tx.allowance - tx.spent := by grind
  have howner := tokenRecord_owner (n := n)
    (show Finds T tx t by rw [Finds, if_neg h0]; exact ⟨h, he⟩)
  rw [hrecord] at howner ⊢
  -- `Spent` is the only field that the setters may leave at its old value
  constructor
  · intro hs
    have hspent : (newToken tx t).spent = tx.spent := hs.spent
    rw [newToken_spent] at hspent
    split_ifs at hspent with hlt
    · exact UInt64.le_of_lt hlt
    · exact UInt64.le_of_eq hspent
  · intro hle
    refine ⟨howner, newToken_balance.trans hbalance, ?_, ?_, rfl⟩
    · change (newToken tx t).allowance = tx.allowance
      rw [newToken_allowance]
      split_ifs with hchange
      · rfl
      · -- nothing changes, so the allowance that is left is the same, too
        obtain ⟨hlt, hb⟩ := not_or.mp hchange
        have hs : t.spent = tx.spent := UInt64.le_antisymm hle (UInt64.not_lt.mp hlt)
        have hb' : tx.balance = t.balance := not_not.mp hb
        dsimp only at hold hd
        grind
    · change (newToken tx t).spent = tx.spent
      rw [newToken_spent]
      split_ifs with hlt
      · rfl
      · exact UInt64.le_antisymm hle (UInt64.not_lt.mp hlt)

/-- The balance is the difference of the natural numbers, unless that is negative. -/
theorem balance_iff (h0 : tx.prevBlock ≠ 0) (he : transferError tx ⟨t, false⟩ = none) :
    (tokenRecord n tx t).balance.toNat + tx.allowance.toNat + tx.spent.toNat =
      tx.denomination.toNat ↔ tx.allowance.toNat + tx.spent.toNat ≤ tx.denomination.toNat := by
  have hbalance : (tokenRecord n tx t).balance = tx.balance := by
    rw [tokenRecord_balance, if_neg h0]
  have hsum := (amounts_of_transferError he).2
  have hlt := tx.balance.toNat_lt
  rw [hbalance]
  omega

/-- What an accepted transfer leaves behind, in every reachable state of a state database: the
record never loses what was spent, and it is the one that the transfer states exactly if that is not
less spent than before; the balance is the difference of natural numbers exactly if that is not
negative. -/
theorem transfer_record {log : List Anchored} {w w' : Env Unit} (hrun : Anchoring C T w log)
    (h0 : tx.prevBlock ≠ 0)
    (hc : commitTransaction C (mapStorage T) n (.plasma tx) w = .ok (.ok (), w')) :
    ∃ t r, T.tokens.lookup tx.tokenID = some t ∧
      w'.db.objects.tokenObjects.lookup tx.tokenID = some ⟨r, false⟩ ∧
      t.spent ≤ r.spent ∧
      (Stated n tx r ↔ t.spent ≤ tx.spent) ∧
      (Stated n tx r ∧
          r.balance.toNat + tx.allowance.toNat + tx.spent.toNat = tx.denomination.toNat ↔
        t.spent ≤ tx.spent ∧
          tx.allowance.toNat + tx.spent.toNat ≤ tx.denomination.toNat) := by
  have hgood : (Tx.plasma tx).Good C := fun h => absurd h h0
  obtain ⟨-, t, ha⟩ := (sat_commit_map (T := T) (n := n) hgood hrun.ordered).ok hc
  have hf := ha.finds
  rw [Finds, if_neg h0] at hf
  refine ⟨t, tokenRecord n tx t, hf.1, ?_, ?_, stated_iff h0 hf.1 hf.2, ?_⟩
  · rw [ha.tokenObjects, Finmap.lookup_insert]
  · change t.spent ≤ (tokenAfter tx t).spent
    rw [tokenAfter, if_neg h0, newToken_spent]
    split_ifs with hlt
    · exact UInt64.le_of_lt hlt
    · exact UInt64.le_refl _
  · rw [stated_iff h0 hf.1 hf.2, balance_iff h0 hf.2]

/-- A node after two blocks in which the owner deposits token 1 and spends 2 of it. -/
def spentTwoOps : List Op :=
  [.deposit ⟨0, 5, oneAddress⟩, .mint ⟨[oneDeposit], [], ⟨[1], [oneAddress], []⟩⟩,
    .send spendsTwo, .mint ⟨[spendsTwo], [], ⟨[1], [oneAddress], []⟩⟩]

/-- The owner spends one more. -/
def spendsThree : Transaction :=
  { oneDeposit with prevBlock := 2, spent := 3, balance := 2 }

/-- The record of token 1 when a transaction is accepted after block 2. -/
def recordAfter (C : Crypto) (s : Node) (tx : Transaction) : Option Token :=
  match commitTransaction C (mapStorage (stateAt s.currentBlock)) s.blockNumber (.plasma tx)
      ⟨newStateDB, ()⟩ with
  | .ok (.ok (), w) => (w.db.objects.tokenObjects.lookup 1).map TokenObject.token
  | _ => none

theorem commit_of_recordAfter {r : Token} (h : recordAfter C s tx = some r) :
    ∃ w', commitTransaction C (mapStorage (stateAt s.currentBlock)) s.blockNumber (.plasma tx)
        ⟨newStateDB, ()⟩ = .ok (.ok (), w') ∧
      (w'.db.objects.tokenObjects.lookup 1).map TokenObject.token = some r := by
  unfold recordAfter at h
  split at h
  · rename_i w hw
    exact ⟨w, hw, h⟩
  · cases h

/-- The record is the one that the transfer states. -/
theorem transfer_record_spendsThree : ∃ s log w' r, Run byteCrypto s ∧
    Anchoring byteCrypto (stateAt s.currentBlock) ⟨newStateDB, ()⟩ log ∧
    commitTransaction byteCrypto (mapStorage (stateAt s.currentBlock)) s.blockNumber
      (.plasma spendsThree) ⟨newStateDB, ()⟩ = .ok (.ok (), w') ∧
    w'.db.objects.tokenObjects.lookup 1 = some ⟨r, false⟩ ∧ Stated s.blockNumber spendsThree r := by
  obtain ⟨s, hrun, hrec, ht⟩ := exists_runWith byteCrypto (fun _ _ => True) spentTwoOps
    (fun s => recordAfter byteCrypto s spendsThree = some ⟨5, 3, oneAddress, 2, 0, 3⟩ ∧
      s.currentBlock.tries.tokens.lookup 1 = some ⟨5, 2, oneAddress, 3, 0, 2⟩) (by decide +kernel)
  obtain ⟨w', hc, -⟩ := commit_of_recordAfter hrec
  obtain ⟨log, hlog, -⟩ := hrun.anchoring
  obtain ⟨t, r, hold, hnew, -, hiff, -⟩ := transfer_record hlog (by decide) hc
  refine ⟨s, log, w', r, hrun, hlog, hc, hnew, hiff.mpr ?_⟩
  obtain rfl := Option.some.inj (ht.symm.trans hold)
  decide

/-- The owner states that only 1 is spent. It is accepted, and the record still has 2. -/
theorem transfer_not_recorded : ∃ s log w' r, Run byteCrypto s ∧
    Anchoring byteCrypto (stateAt s.currentBlock) ⟨newStateDB, ()⟩ log ∧
    commitTransaction byteCrypto (mapStorage (stateAt s.currentBlock)) s.blockNumber
      (.plasma takesBack) ⟨newStateDB, ()⟩ = .ok (.ok (), w') ∧
    (w'.db.objects.tokenObjects.lookup 1).map TokenObject.token = some r ∧
    takesBack.prevBlock ≠ 0 ∧ takesBack.spent = 1 ∧ r.spent = 2 ∧
    ¬ Stated s.blockNumber takesBack r := by
  obtain ⟨s, hrun, hrec⟩ := exists_runWith byteCrypto (fun _ _ => True) spentTwoOps
    (fun s => recordAfter byteCrypto s takesBack = some ⟨5, 3, oneAddress, 4, 0, 2⟩)
    (by decide +kernel)
  obtain ⟨w', hc, hnew⟩ := commit_of_recordAfter hrec
  obtain ⟨log, hlog, -⟩ := hrun.anchoring
  refine ⟨s, log, w', _, hrun, hlog, hc, hnew, by decide, rfl, rfl, fun h => ?_⟩
  exact absurd h.spent (by decide)

/-! ## What a deposit fixes -/

/-- The transactions agree in something. -/
def Carried {α : Type} (key : Transaction → α) (h : List (ℕ × Transaction)) : Prop :=
  ∀ e ∈ h, ∀ e' ∈ h, key e.2 = key e'.2

/-- A block keeps an agreement if its transfers agree with what is in the chain. -/
theorem Minted.carried {α : Type} {key : Transaction → α} (hm : Minted C s s') (hi : ChainInv C s)
    {tokenID : UInt64} (hold : Carried key (included tokenID s.chain))
    (hnew : ∀ tx ∈ s'.currentBlock.transactions, tx.prevBlock ≠ 0 →
      ∀ e ∈ included tx.tokenID s.chain, key tx = key e.2) :
    Carried key (included tokenID s'.chain) := by
  rw [hm.chain, included_concat]
  rcases hm.cases tokenID with ⟨hnil, -⟩ | ⟨tx, t, hone, rfl, hf, -⟩
  · rw [hnil, List.map_nil, List.append_nil]
    exact hold
  · rw [hone, List.map_singleton]
    have htx : ∀ e ∈ included tx.tokenID s.chain, key tx = key e.2 := by
      by_cases h0 : tx.prevBlock = 0
      · -- a deposit is the first transaction of its token
        rw [Finds, if_pos h0] at hf
        rw [(hi.history tx.tokenID).eq_nil hf.1]
        exact fun _ he => by cases he
      · exact hnew tx (mem_of_forToken hone).1 h0
    intro e he e' he'
    rw [List.mem_append, List.mem_singleton] at he he'
    rcases he with he | rfl
    · rcases he' with he' | rfl
      · exact hold e he e' he'
      · exact (htx e he).symm
    · rcases he' with he' | rfl
      · exact htx e' he'
      · rfl

/-- The run rule for what the transactions of a token agree in. -/
theorem RunWith.carried {α : Type} {key : Transaction → α} {P : Node → Op → Prop}
    (h : RunWith C P s)
    (hnew : ∀ {s s' : Node} {c : MintChoice}, RunWith C P s → P s (.mint c) → Minted C s s' →
      ∀ tx ∈ s'.currentBlock.transactions, tx.prevBlock ≠ 0 →
        ∀ e ∈ included tx.tokenID s.chain, key tx = key e.2) (tokenID : UInt64) :
    Carried key (included tokenID s.chain) := by
  induction h with
  | new => exact fun e he => by cases he
  | @step s s' op hrun hp hs ih =>
    rcases step_block hs with ⟨-, -, hc⟩ | ⟨c, m, T', rfl, hm⟩
    · rw [hc]
      exact ih
    · have hmint := hm.minted hrun.poolChecked
      exact hmint.carried hrun.chainInv ih (hnew hrun hp hmint)

/-- The record of a token has the denomination of all its transactions. -/
theorem RunWith.denomination {P : Node → Op → Prop} (h : RunWith C P s) {tokenID : UInt64}
    (ht : s.currentBlock.tries.tokens.lookup tokenID = some t) :
    ∀ e ∈ included tokenID s.chain, e.2.denomination = t.denomination := by
  induction h generalizing tokenID t with
  | new => exact fun e he => by cases he
  | @step s s' op hrun hp hs ih =>
    rcases step_block hs with ⟨hb, -, hc⟩ | ⟨c, m, T', rfl, hm⟩
    · rw [hb] at ht
      rw [hc]
      exact ih ht
    · have hmint := hm.minted hrun.poolChecked
      rw [hmint.chain, included_concat]
      rcases hmint.cases tokenID with ⟨hnil, hsame⟩ | ⟨tx, t₀, hone, rfl, hf, hrec⟩
      · rw [hnil, List.map_nil, List.append_nil]
        exact ih (hsame ▸ ht)
      · obtain rfl := Option.some.inj (hrec.symm.trans ht)
        rw [hone, List.map_singleton, tokenRecord_denomination]
        intro e he
        rw [List.mem_append, List.mem_singleton] at he
        -- a deposit has no transaction before it; a transfer has the denomination of the record
        unfold Finds at hf
        split_ifs at hf with h0
        · rw [(hrun.chainInv.history tx.tokenID).eq_nil hf.1] at he
          rcases he with he | rfl
          · cases he
          · rw [hf.2]
            rfl
        · have hd : t₀.denomination = tx.denomination := (amounts_of_transferError hf.2).1
          rcases he with he | rfl
          · exact ih hf.1 e he
          · exact hd.symm

/-- Whenever a block is minted, the transfers in the pool carry the index of the transactions of
their token that are in the chain. -/
def MintsIndices (s : Node) : Op → Prop
  | .mint _ => ∀ tx ∈ s.pool.txpool, tx.prevBlock ≠ 0 →
      ∀ e ∈ included tx.tokenID s.chain, tx.depositIndex = e.2.depositIndex
  | _ => True

instance (s : Node) : ∀ op, Decidable (MintsIndices s op)
  | .mint _ => inferInstanceAs (Decidable (∀ _ ∈ s.pool.txpool, _))
  | .deposit _ | .send _ | .sendAnchor _ _ _ => inferInstanceAs (Decidable True)

/-- In every run whose transfers carry the index of their token, the first transaction of a token is
its deposit, and all others carry the index and the denomination of it. -/
theorem deposit_carried (h : RunWith C MintsIndices s) {tokenID : UInt64} {e : ℕ × Transaction}
    (he : e ∈ included tokenID s.chain) :
    ∃ d, (included tokenID s.chain)[0]? = some d ∧ d.2.prevBlock = 0 ∧
      e.2.depositIndex = d.2.depositIndex ∧ e.2.denomination = d.2.denomination := by
  have hlen := List.length_pos_of_mem he
  have hfirst := List.getElem?_eq_getElem hlen
  have hd := List.mem_of_getElem? hfirst
  refine ⟨_, hfirst, (h.chainInv.history tokenID).linked.first _ hfirst, ?_, ?_⟩
  · exact h.carried (fun _ hp hm tx htx => hp tx (hm.body tx htx)) tokenID e he _ hd
  · rcases ht : s.currentBlock.tries.tokens.lookup tokenID with _ | t
    · rw [(h.chainInv.history tokenID).eq_nil ht] at he
      cases he
    · rw [h.denomination ht e he, h.denomination ht _ hd]

/-- The deposit and the transfer of token 1. -/
theorem deposit_carried_twoBlocks : ∃ s d, RunWith byteCrypto MintsIndices s ∧
    (2, oneTransfer) ∈ included 1 s.chain ∧ (included 1 s.chain)[0]? = some d ∧
    d.2.prevBlock = 0 ∧ oneTransfer.depositIndex = d.2.depositIndex ∧
    oneTransfer.denomination = d.2.denomination := by
  obtain ⟨s, hrun, he⟩ := exists_runWith byteCrypto MintsIndices twoBlocks
    (fun s => (2, oneTransfer) ∈ included 1 s.chain) (by decide +kernel)
  obtain ⟨d, hd⟩ := deposit_carried hrun he
  exact ⟨s, d, hrun, he, hd⟩

/-- A transfer with the index of another deposit. -/
def strayTransfer : Transaction := { oneTransfer with depositIndex := 7 }

/-- It is accepted. -/
theorem index_not_carried : ∃ s, Run byteCrypto s ∧ (1, oneDeposit) ∈ included 1 s.chain ∧
    oneDeposit.prevBlock = 0 ∧ (2, strayTransfer) ∈ included 1 s.chain ∧
    strayTransfer.depositIndex ≠ oneDeposit.depositIndex := by
  obtain ⟨s, hrun, hd, he⟩ := exists_runWith byteCrypto (fun _ _ => True)
    [.deposit ⟨0, 5, oneAddress⟩, .mint ⟨[oneDeposit], [], ⟨[1], [oneAddress], []⟩⟩,
      .send strayTransfer, .mint ⟨[strayTransfer], [], ⟨[1], [oneAddress, zeroAddress], []⟩⟩]
    (fun s => (1, oneDeposit) ∈ included 1 s.chain ∧ (2, strayTransfer) ∈ included 1 s.chain)
    (by decide +kernel)
  exact ⟨s, hrun, hd, rfl, he, by decide⟩

end GoPlasma.Plasma
