import GoPlasma.Lib.Holdings
import GoPlasma.Plasma.AmountTheorems

/-!
# The ledger of accounts

An account lists the tokens of its address and two totals of them. Tokens and accounts are changed
by separate code, and the accounts are kept under the last 8 bytes of an address. `ledger_agrees`:
the account of an address agrees with the trie of tokens as long as no other address with the same 8
bytes is used, and no transfer to it raises the balance of a token. Without either it need not
(`ledger_disagrees`): the difference of the balances is a `uint64` that then wraps around, and the
encoder refuses the negative total. `account_isolated`: a block leaves the accounts alone whose last
8 bytes it does not name. Both are about runs of which all blocks are legible (`Tries.Legible`), so
that the trees show what the maps say.
-/

namespace GoPlasma.Plasma

open Holdings

variable {C : Crypto} {s s' : Node} {tx : Transaction} {t e : Token} {n : ℕ} {T : Tries}
  {a : Address} {table : UInt64 → Option Token} {A : Account} {tokenID : UInt64}

/-! ## Ledgers -/

/-- The account lists the tokens of the address, with the totals of their denominations and
balances. -/
structure Ledger (a : Address) (table : UInt64 → Option Token) (A : Account) : Prop where
  lists : Lists Token.owner a table A.tokens
  denomination : A.denomination = total (fun t => t.denomination.toNat) table A.tokens
  balance : A.balance = total (fun t => t.balance.toNat) table A.tokens

theorem Ledger.denomination_nonneg (h : Ledger a table A) : 0 ≤ A.denomination := by
  rw [h.denomination]
  exact total_nonneg (fun _ => Int.natCast_nonneg _) _ _

theorem Ledger.balance_nonneg (h : Ledger a table A) : 0 ≤ A.balance := by
  rw [h.balance]
  exact total_nonneg (fun _ => Int.natCast_nonneg _) _ _

/-- A token comes to the address. -/
theorem Ledger.gain (h : Ledger a table A) (hi : ¬ Owned Token.owner a table tokenID)
    (he : e.owner = a) :
    Ledger a (Function.update table tokenID (some e)) ⟨A.tokens ++ [tokenID],
      A.denomination + e.denomination.toNat, A.balance + e.balance.toNat⟩ := by
  have hmem : tokenID ∉ A.tokens := mt (h.lists.mem tokenID).mp hi
  refine ⟨h.lists.gain hi he, ?_, ?_⟩
  · rw [total_gain hmem, h.denomination]
  · rw [total_gain hmem, h.balance]

/-- A token leaves the address. -/
theorem Ledger.lose (h : Ledger a table A) (hi : table tokenID = some t) (ht : t.owner = a)
    (he : e.owner ≠ a) :
    Ledger a (Function.update table tokenID (some e)) (A.debit tokenID t) := by
  have hmem : tokenID ∈ A.tokens := (h.lists.mem tokenID).mpr ⟨t, hi, ht⟩
  refine ⟨h.lists.lose he, ?_, ?_⟩
  · change A.denomination - _ = _
    rw [Account.debit, total_lose h.lists.nodup hmem hi, h.denomination]
  · change A.balance - _ = _
    rw [Account.debit, total_lose h.lists.nodup hmem hi, h.balance]

/-- A token of the address changes and stays. -/
theorem Ledger.replace (h : Ledger a table A) (hi : table tokenID = some t) (ht : t.owner = a)
    (he : e.owner = a) :
    Ledger a (Function.update table tokenID (some e)) ⟨A.tokens,
      A.denomination - t.denomination.toNat + e.denomination.toNat,
      A.balance - t.balance.toNat + e.balance.toNat⟩ := by
  have hmem : tokenID ∈ A.tokens := (h.lists.mem tokenID).mpr ⟨t, hi, ht⟩
  refine ⟨h.lists.replace (iff_of_true ⟨t, hi, ht⟩ he), ?_, ?_⟩
  · rw [total_replace h.lists.nodup hmem hi, h.denomination]
  · rw [total_replace h.lists.nodup hmem hi, h.balance]

/-- A token of others changes and stays away. -/
theorem Ledger.skip (h : Ledger a table A) (hi : ¬ Owned Token.owner a table tokenID)
    (he : e.owner ≠ a) : Ledger a (Function.update table tokenID (some e)) A := by
  have hmem : tokenID ∉ A.tokens := mt (h.lists.mem tokenID).mp hi
  refine ⟨h.lists.replace (iff_of_false hi he), ?_, ?_⟩
  · rw [total_update_of_notMem hmem, h.denomination]
  · rw [total_update_of_notMem hmem, h.balance]

/-! ## One transaction -/

/-- A change of the balance that does not raise it. -/
theorem charged_eq (h : tx.balance ≤ t.balance) (A : Account) : charged tx t A =
    { A with balance := A.balance - t.balance.toNat + tx.balance.toNat } := by
  have hle : tx.balance.toNat ≤ t.balance.toNat := UInt64.le_iff_toNat_le.mp h
  unfold charged
  split_ifs with hb
  · rw [UInt64.toNat_sub_of_le _ _ h, Nat.cast_sub hle, sub_sub_eq_add_sub, add_sub_right_comm]
  · rw [not_not.mp hb, sub_add_cancel]

/-- The token that a transaction meets in a table: none for a deposit, one of the previous owner for
a transfer. -/
def Meets (table : UInt64 → Option Token) (tx : Transaction) (t : Token) : Prop :=
  if tx.prevBlock = 0 then table tx.tokenID = none ∧ t = depositToken tx
  else table tx.tokenID = some t ∧ t.owner = tx.prevOwner

theorem tokenRecord_denomination : (tokenRecord n tx t).denomination = t.denomination := by
  change (tokenAfter tx t).denomination = _
  unfold tokenAfter
  split_ifs
  · rfl
  · exact newToken_denomination

theorem tokenRecord_balance :
    (tokenRecord n tx t).balance = if tx.prevBlock = 0 then t.balance else tx.balance := by
  change (tokenAfter tx t).balance = _
  unfold tokenAfter
  split_ifs
  · rfl
  · exact newToken_balance

section
variable (h : Ledger a table A) (hm : Meets table tx t)
  (ho : (tokenRecord n tx t).owner = tx.recipient)
include h hm ho

/-- The recipient's account. -/
theorem Ledger.received (hr : tx.recipient = a) (hb : tx.prevBlock ≠ 0 → tx.balance ≤ t.balance) :
    Ledger a (Function.update table tx.tokenID (some (tokenRecord n tx t)))
      (recipientAfter tx t A) := by
  rw [hr] at ho
  unfold Meets at hm
  unfold recipientAfter
  by_cases h0 : tx.prevBlock = 0
  · rw [if_pos h0] at hm ⊢
    -- a deposit is of a token that was not there
    have hi : ¬ Owned Token.owner a table tx.tokenID := by
      rintro ⟨t', ht', -⟩
      rw [hm.1] at ht'
      cases ht'
    have hgain := h.gain hi ho
    rw [tokenRecord_denomination, tokenRecord_balance, if_pos h0] at hgain
    exact hgain
  · rw [if_neg h0] at hm ⊢
    rw [Plasma.received, charged_eq (hb h0)]
    by_cases hown : t.owner = a
    · -- the owner keeps the token
      have hrep := h.replace hm.1 hown ho
      rw [tokenRecord_denomination, tokenRecord_balance, if_neg h0, sub_add_cancel] at hrep
      rw [if_neg fun hne => hne (hown.trans hr.symm)]
      exact hrep
    · have hi : ¬ Owned Token.owner a table tx.tokenID := by
        rintro ⟨t', ht', howner⟩
        rw [hm.1] at ht'
        obtain rfl := Option.some.inj ht'
        exact hown howner
      have hgain := h.gain hi ho
      rw [tokenRecord_denomination, tokenRecord_balance, if_neg h0] at hgain
      rw [if_pos fun heq => hown (heq.trans hr)]
      change Ledger a _ ⟨A.tokens ++ [tx.tokenID], A.denomination + t.denomination.toNat,
        A.balance + t.balance.toNat - t.balance.toNat + tx.balance.toNat⟩
      rw [add_sub_cancel_right]
      exact hgain

/-- The account of an address that is not the recipient. -/
theorem Ledger.sent (hr : tx.recipient ≠ a) :
    Ledger a (Function.update table tx.tokenID (some (tokenRecord n tx t)))
      (if tx.prevOwner = a then senderAfter tx t A else A) := by
  have he : (tokenRecord n tx t).owner ≠ a := ho ▸ hr
  unfold Meets at hm
  unfold senderAfter
  by_cases h0 : tx.prevBlock = 0
  · rw [if_pos h0] at hm ⊢
    rw [ite_self]
    refine h.skip ?_ he
    rintro ⟨t', ht', -⟩
    rw [hm.1] at ht'
    cases ht'
  · rw [if_neg h0] at hm ⊢
    by_cases hp : tx.prevOwner = a
    · have hown : t.owner = a := hm.2.trans hp
      rw [if_pos hp, Plasma.sent, if_pos fun heq => hr (heq.symm.trans hown)]
      exact h.lose hm.1 hown he
    · rw [if_neg hp]
      refine h.skip ?_ he
      rintro ⟨t', ht', howner⟩
      rw [hm.1] at ht'
      obtain rfl := Option.some.inj ht'
      exact hp (hm.2.symm.trans howner)

end

/-! ## One block -/

/-- No other address is written under the key of this one. -/
def Alone (a : Address) (o : Objects) : Prop :=
  ∀ addr, o.accountObjects.lookup addr ≠ none → shortAddr addr = shortAddr a → addr = a

/-- The account of an address agrees with the tokens, while a block is made. -/
structure AccountInv (C : Crypto) (n : ℕ) (T : Tries) (a : Address) (txs : List Tx) (o : Objects) :
    Prop where
  done : TokensDone C n T txs o
  alone : Alone a o
  agrees : ∃ A, currentAccount T o a = some A ∧ Ledger a (committedToken o T) A

/-- The transactions that keep the ledger of an address in order: they name no other address with
the same key, and a transfer to the address does not raise the balance of the token. -/
structure Orderly (T : Tries) (a : Address) (tx : Transaction) : Prop where
  recipient : shortAddr tx.recipient = shortAddr a → tx.recipient = a
  prevOwner : shortAddr tx.prevOwner = shortAddr a → tx.prevOwner = a
  balance : tx.prevBlock ≠ 0 → tx.recipient = a → ∀ t ∈ T.tokens.lookup tx.tokenID,
    transferError tx ⟨t, false⟩ = none → tx.balance ≤ t.balance

section
variable {txs : List Tx} {o o' : Objects}

/-- The first transaction of a token in a block finds the record in the trie. -/
theorem TokensDone.committedToken (hd : TokensDone C n T txs o)
    (hs : o.tokenIsSet.lookup tokenID ≠ some true) :
    committedToken o T tokenID = T.tokens.lookup tokenID := by
  rcases hd tokenID with ⟨-, hnone, -⟩ | ⟨_, _, -, -, -, -, hset, -⟩
  · rw [Plasma.committedToken, hnone]
  · exact absurd hset hs

theorem Accepted.meets (ha : Accepted C n T tx t o o') (hd : TokensDone C n T txs o) :
    Meets (committedToken o T) tx t := by
  have hf := ha.finds
  have howner := fun h0 => hf.owner h0
  unfold Finds at hf
  unfold Meets
  rw [hd.committedToken ha.notSet]
  split_ifs with h0
  · rwa [if_pos h0] at hf
  · rw [if_neg h0] at hf
    exact ⟨hf.1, howner h0⟩

theorem Accepted.committedToken (ha : Accepted C n T tx t o o') :
    committedToken o' T =
      Function.update (committedToken o T) tx.tokenID (some (tokenRecord n tx t)) := by
  funext k
  unfold Plasma.committedToken
  rw [ha.tokenObjects]
  by_cases hk : k = tx.tokenID
  · rw [hk, Finmap.lookup_insert, Function.update_self]
    rfl
  · rw [Finmap.lookup_insert_of_ne _ hk, Function.update_of_ne hk]

theorem Accepted.alone (ha : Accepted C n T tx t o o') (hall : Alone a o) (hord : Orderly T a tx) :
    Alone a o' := by
  intro addr haddr hkey
  by_cases hr : addr = tx.recipient
  · rw [hr] at hkey ⊢
    exact hord.recipient hkey
  · by_cases hp : addr = tx.prevOwner
    · rw [hp] at hkey ⊢
      exact hord.prevOwner hkey
    · rw [ha.others addr hr hp] at haddr
      exact hall addr haddr hkey

/-- One more accepted transaction. -/
theorem AccountInv.step {tx : Tx} (hi : AccountInv C n T a txs o)
    (hord : ∀ tx', tx = .plasma tx' → Orderly T a tx') (heff : TxEffect C n T tx o o') :
    AccountInv C n T a (txs ++ [tx]) o' := by
  obtain ⟨A, hA, hled⟩ := hi.agrees
  cases tx with
  | anchor tx =>
    have hs : SameLedger o o' := heff
    refine ⟨hi.done.step heff, ?_, A, ?_, ?_⟩
    · intro addr haddr
      rw [hs.accountObjects] at haddr
      exact hi.alone addr haddr
    · rw [← hA]
      exact currentAccount_congr (by rw [hs.accountObjects])
    · have hsame : committedToken o' T = committedToken o T := by
        funext k
        rw [Plasma.committedToken, Plasma.committedToken, hs.tokenObjects]
      rwa [hsame]
  | plasma tx =>
    have hd : TokensDone C n T (txs ++ [.plasma tx]) o' := hi.done.step heff
    obtain ⟨t, ha⟩ := heff
    have ho := tokenRecord_owner (n := n) ha.finds
    have hm := ha.meets hi.done
    have hplain := hord tx rfl
    refine ⟨hd, ha.alone hi.alone hplain, ?_⟩
    rw [ha.committedToken]
    -- the account is the recipient's, the previous owner's, or not touched
    by_cases hr : tx.recipient = a
    · refine ⟨recipientAfter tx t A, ?_, hled.received hm ho hr fun h0 => ?_⟩
      · have hrec := ha.recipient
        rw [hr, hA] at hrec
        exact hrec
      · have hf := ha.finds
        rw [Finds, if_neg h0] at hf
        exact hplain.balance h0 hr t hf.1 hf.2
    · refine ⟨_, ?_, hled.sent hm ho hr⟩
      by_cases hp : tx.prevOwner = a
      · have hsend := ha.sender (fun heq => hr (heq.symm.trans hp))
        rw [hp, hA] at hsend
        rw [if_pos hp]
        exact hsend
      · rw [if_neg hp, ← hA]
        exact currentAccount_congr (ha.others a (fun heq => hr heq.symm) fun heq => hp heq.symm)

end

/-! ## The trie of accounts -/

/-- The account of an address in the tries of a block; an address without a record has none of the
tokens. -/
def accountOf (T : Tries) (a : Address) : Option Account :=
  match T.accounts.lookup (shortAddr a) with
  | none => some ⟨[], 0, 0⟩
  | some p => p

theorem currentAccount_of_none {o : Objects} (h : o.accountObjects.lookup a = none) :
    currentAccount T o a = accountOf T a := by
  simp only [currentAccount, h]
  rfl

/-- The loop over the account objects leaves the record under a key alone that no object has. -/
theorem updateAccountObjects_other (o : Objects) (l : List Address) {T T' : Tries} {key : Smt.Key}
    (hl : ∀ addr, o.accountObjects.lookup addr ≠ none → shortAddr addr ≠ key)
    (h : updateAccountObjects o l T = .ok T') :
    T'.accounts.lookup key = T.accounts.lookup key := by
  induction l generalizing T with
  | nil =>
    cases h
    rfl
  | cons addr l ih =>
    rcases updateAccountObjects_cons h with ⟨-, h⟩ | ⟨B, hlook, h⟩
    · exact ih h
    · have hne : key ≠ shortAddr addr :=
        (hl addr (by rw [hlook]; exact Option.some_ne_none _)).symm
      rw [ih h]
      exact Finmap.lookup_insert_of_ne _ hne

/-- The loop over the account objects writes an account that is alone under its key. -/
theorem updateAccountObjects_self {o : Objects} {l : List Address} {T T' : Tries}
    (halone : Alone a o) (hA : o.accountObjects.lookup a = some (some A))
    (hl : a ∈ l ∨ T.accounts.lookup (shortAddr a) = some (storedAccount A))
    (h : updateAccountObjects o l T = .ok T') :
    T'.accounts.lookup (shortAddr a) = some (storedAccount A) := by
  induction l generalizing T with
  | nil =>
    cases h
    exact hl.resolve_left List.not_mem_nil
  | cons addr l ih =>
    rcases updateAccountObjects_cons h with ⟨hlook, h⟩ | ⟨B, hlook, h⟩
    · have hne : a ≠ addr := by
        rintro rfl
        rw [hA] at hlook
        cases hlook
      exact ih (hl.imp_left fun hm => (List.mem_cons.mp hm).resolve_left hne) h
    · by_cases hkey : shortAddr addr = shortAddr a
      · obtain rfl := halone addr (by rw [hlook]; exact Option.some_ne_none _) hkey
        rw [hlook] at hA
        cases hA
        exact ih (.inr (Finmap.lookup_insert _)) h
      · have hne : a ≠ addr := fun heq => hkey (congrArg shortAddr heq.symm)
        refine ih (hl.imp (fun hm => (List.mem_cons.mp hm).resolve_left hne) fun hT => ?_) h
        exact (Finmap.lookup_insert_of_ne _ fun heq => hkey heq.symm).trans hT

/-- The loop over the account objects returns if no pointer is nil. -/
theorem updateAccountObjects_returns {o : Objects} {l : List Address}
    (h : ∀ addr ∈ l, ∃ A, o.accountObjects.lookup addr = some (some A)) (T : Tries) :
    ∃ T', updateAccountObjects o l T = .ok T' := by
  induction l generalizing T with
  | nil => exact ⟨T, rfl⟩
  | cons addr l ih =>
    obtain ⟨A, hA⟩ := h addr List.mem_cons_self
    obtain ⟨T', hT'⟩ := ih (fun addr haddr => h addr (List.mem_cons_of_mem _ haddr))
      { T with accounts := T.accounts.insert (shortAddr addr) (storedAccount A) }
    refine ⟨T', ?_⟩
    rw [updateAccountObjects, updateAccountObject, hA]
    exact hT'

section
variable {order : MapOrder} {o : Objects} {T' : Tries}

/-- `Commit` returns if no pointer to an account is nil. -/
theorem commit_returns
    (h : ∀ addr ∈ order.accounts, ∃ A, o.accountObjects.lookup addr = some (some A)) (T : Tries) :
    ∃ T', commit order o T = .ok T' := by
  obtain ⟨T₁, hT₁⟩ := updateAccountObjects_returns h
    (order.tokens.foldl (fun T k => updateTokenObject o k T) T)
  refine ⟨order.chains.foldl (fun T k => updateChainObject o k T) T₁, ?_⟩
  rw [commit]
  rw [hT₁]
  rfl

/-- `Commit` leaves the record under a key alone that no object has. -/
theorem commit_account_other (h : commit order o T = .ok T') {key : Smt.Key}
    (hkey : ∀ addr, o.accountObjects.lookup addr ≠ none → shortAddr addr ≠ key) :
    T'.accounts.lookup key = T.accounts.lookup key := by
  obtain ⟨T₁, hacc, rfl⟩ := commit_cases h
  rw [(updateChainObjects_frame o order.chains T₁).2.2, updateAccountObjects_other o _ hkey hacc,
    (updateTokenObjects_frame o _ T).1]

/-- `Commit` writes an account that is alone under its key. -/
theorem commit_account_self (h : commit order o T = .ok T') (hv : order.Valid o)
    (halone : Alone a o) (hA : o.accountObjects.lookup a = some (some A)) :
    T'.accounts.lookup (shortAddr a) = some (storedAccount A) := by
  obtain ⟨T₁, hacc, rfl⟩ := commit_cases h
  have hmem : a ∈ order.accounts := (hv.2.1.mem a).mpr (by rw [hA]; exact Option.some_ne_none _)
  rw [(updateChainObjects_frame o order.chains T₁).2.2,
    updateAccountObjects_self halone hA (.inl hmem) hacc]

end

theorem storedAccount_of_ledger (h : Ledger a table A) : storedAccount A = some A := by
  refine if_neg ?_
  rintro (hneg | hneg)
  · exact absurd h.denomination_nonneg (not_le.mpr hneg)
  · exact absurd h.balance_nonneg (not_le.mpr hneg)

/-- The account of an address in the new tries. -/
theorem commit_account {order : MapOrder} {o : Objects} {T' : Tries}
    (h : commit order o T = .ok T') (hv : order.Valid o) (halone : Alone a o)
    (hA : currentAccount T o a = some A) (hstored : storedAccount A = some A) :
    accountOf T' a = some A := by
  rw [accountOf]
  rcases hlook : o.accountObjects.lookup a with _ | p
  · -- no object: the record stays as it was
    rw [currentAccount_of_none hlook, accountOf] at hA
    rw [commit_account_other h]
    · exact hA
    · intro addr haddr hkey
      rw [halone addr haddr hkey] at haddr
      exact haddr hlook
  · rw [currentAccount_of_lookup hlook] at hA
    rw [commit_account_self h hv halone (hlook.trans (congrArg some hA))]
    exact hstored

/-! ## Runs -/

/-- All transactions in the pool are in order when a block is minted. -/
def MintsOrderly (a : Address) (s : Node) : Op → Prop
  | .mint _ => ∀ tx ∈ s.pool.txpool, Orderly s.currentBlock.tries a tx
  | _ => True

instance (a : Address) (tx : Transaction) : Decidable (Orderly T a tx) :=
  decidable_of_iff
    ((shortAddr tx.recipient = shortAddr a → tx.recipient = a) ∧
      (shortAddr tx.prevOwner = shortAddr a → tx.prevOwner = a) ∧
      (tx.prevBlock ≠ 0 → tx.recipient = a → ∀ t ∈ T.tokens.lookup tx.tokenID,
        transferError tx ⟨t, false⟩ = none → tx.balance ≤ t.balance))
    ⟨fun ⟨h₁, h₂, h₃⟩ => ⟨h₁, h₂, h₃⟩, fun h => ⟨h.recipient, h.prevOwner, h.balance⟩⟩

instance (a : Address) (s : Node) : ∀ op, Decidable (MintsOrderly a s op)
  | .mint _ => inferInstanceAs (Decidable (∀ _ ∈ s.pool.txpool, _))
  | .deposit _ | .send _ | .sendAnchor _ _ _ => inferInstanceAs (Decidable True)

/-- The account of an address in a state agrees with the trie of tokens. -/
def Agrees (a : Address) (T : Tries) : Prop :=
  ∃ A, accountOf T a = some A ∧ Ledger a (fun tokenID => T.tokens.lookup tokenID) A

theorem AccountInv.new (hi : Agrees a T) : AccountInv C n T a [] newStateDB.objects := by
  obtain ⟨A, hA, hled⟩ := hi
  exact ⟨tokensDone_new, fun _ haddr => absurd rfl haddr, A, hA, hled⟩

/-- A block keeps the agreement. -/
theorem Mints.agrees {c : MintChoice} {m : Minting Unit} {T' : Tries} (h : Mints C c s s' m T')
    (hp : s.PoolChecked C) (hord : MintsOrderly a s (.mint c))
    (hi : Agrees a s.currentBlock.tries) : Agrees a s'.currentBlock.tries := by
  have hinv : AccountInv C s.blockNumber (stateAt s.currentBlock) a m.committed
      m.env.db.objects := by
    refine h.keeps hp (fun txs tx o o' htx hI heff => hI.step ?_ heff) (.new hi)
    rintro tx' rfl
    obtain ⟨hr, ho, hb⟩ := hord tx' (h.mem_pool htx)
    exact ⟨hr, ho, hb⟩
  obtain ⟨A, hA, hled⟩ := hinv.agrees
  have htable : (fun tokenID => T'.tokens.lookup tokenID) =
      committedToken m.env.db.objects (stateAt s.currentBlock) :=
    funext fun tokenID => (commit_lookup h.tries h.valid tokenID).1
  rw [h.block]
  refine ⟨A, commit_account h.tries h.valid hinv.alone hA (storedAccount_of_ledger hled), ?_⟩
  dsimp only
  rwa [htable]

theorem agrees_new : Agrees a newNode.currentBlock.tries := by
  refine ⟨⟨[], 0, 0⟩, rfl, ⟨List.nodup_nil, fun tokenID => ⟨fun h => ?_, ?_⟩⟩, rfl, rfl⟩
  · cases h
  · rintro ⟨t, ht, -⟩
    cases ht

/-- By induction on the run: a call without a block changes no account. -/
theorem RunWith.agrees (h : RunWith C (MintsOrderly a) s) : Agrees a s.currentBlock.tries := by
  induction h with
  | new => exact agrees_new
  | @step s s' op hrun hp hs ih =>
    rcases step_block hs with ⟨hb, -⟩ | ⟨c, m, T', rfl, hm⟩
    · rwa [hb]
    · exact hm.agrees hrun.poolChecked hp ih

/-! ## Results -/

/-- In every run whose blocks are legible, and in order for an address, its account lists the tokens
it owns, each once, with the totals of their denominations and balances. -/
theorem ledger_agrees (h : RunWith C (fun s op => MintsOrderly a s op ∧ MintsLegible C s op) s) :
    ∃ A, accountOf s.currentBlock.tries a = some A ∧
      Ledger a (fun tokenID => s.currentBlock.tries.tokens.lookup tokenID) A ∧ 0 ≤ A.balance := by
  obtain ⟨A, hA, hled⟩ := (h.mono C fun _ _ hp => hp.1).agrees
  exact ⟨A, hA, hled, hled.balance_nonneg⟩

/-- The owner of the one token, after the deposit. -/
theorem ledger_agrees_oneDeposit : ∃ s A,
    RunWith byteCrypto (fun s op => MintsOrderly oneAddress s op ∧ MintsLegible byteCrypto s op) s ∧
    accountOf s.currentBlock.tries oneAddress = some A ∧ A = ⟨[1], 5, 5⟩ ∧
    Ledger oneAddress (fun tokenID => s.currentBlock.tries.tokens.lookup tokenID) A := by
  obtain ⟨s, hrun, hacc⟩ := exists_runWith byteCrypto
    (fun s op => MintsOrderly oneAddress s op ∧ MintsLegible byteCrypto s op) (twoBlocks.take 2)
    (fun s => accountOf s.currentBlock.tries oneAddress = some ⟨[1], 5, 5⟩) (by decide +kernel)
  obtain ⟨A, hA, hled, -⟩ := ledger_agrees hrun
  exact ⟨s, A, hrun, hA, Option.some.inj (hA.symm.trans hacc), hled⟩

/-- The owner allows 2 of 5. -/
def allowsTwo : Transaction :=
  { oneDeposit with prevBlock := 1, allowance := 2, balance := 3 }

/-- The owner takes the allowance back. -/
def allowsNone : Transaction :=
  { oneDeposit with prevBlock := 2, allowance := 0, balance := 5 }

/-- An address with the same last 8 bytes. -/
def oneAddressTwin : Address := ⟨[1] ++ Bytes.zeros 18 ++ [1], by decide⟩

/-- The deposit of token 1 to the other address. -/
def twinDeposit : Transaction :=
  { depositTransaction byteCrypto ⟨0, 5, oneAddressTwin⟩ with sig := zeroSig }

/-- An address whose short address differs from that of the first one before the last digit. -/
def farAddress : Address := ⟨Bytes.zeros 5 ++ [0x10] ++ Bytes.zeros 13 ++ [0x20], by decide⟩

/-- The deposit of a second token, to it. -/
def farDeposit : Transaction :=
  { depositTransaction byteCrypto ⟨0x100000, 7, farAddress⟩ with sig := zeroSig }

/-- A block with two deposits. -/
def twoDeposits : List Op :=
  [.deposit ⟨0, 5, oneAddress⟩, .deposit ⟨0x100000, 7, farAddress⟩,
    .mint ⟨[oneDeposit, farDeposit], [], ⟨[1, 0x11], [oneAddress, farAddress], []⟩⟩]

/-- The balance of a token is raised by a transfer to its owner: the account of the owner cannot be
read any more, although the block is legible. A deposit is made to an address with the same last 8
bytes: the token is in the account of an address that does not own it. -/
theorem ledger_disagrees :
    (∃ s, RunWith byteCrypto (MintsLegible byteCrypto) s ∧
      s.currentBlock.tries.tokens.lookup 1 = some ⟨5, 3, oneAddress, 5, 0, 0⟩ ∧
      accountOf s.currentBlock.tries oneAddress = none) ∧
    ∃ s, RunWith byteCrypto (MintsLegible byteCrypto) s ∧
      s.currentBlock.tries.tokens.lookup 1 = some ⟨5, 1, oneAddressTwin, 5, 0, 0⟩ ∧
      accountOf s.currentBlock.tries oneAddress = some ⟨[1], 5, 5⟩ := by
  constructor
  · exact exists_runWith byteCrypto (MintsLegible byteCrypto)
      (twoDeposits ++ [.send allowsTwo, .mint ⟨[allowsTwo], [], ⟨[1], [oneAddress], []⟩⟩,
        .send allowsNone, .mint ⟨[allowsNone], [], ⟨[1], [oneAddress], []⟩⟩])
      (fun s => s.currentBlock.tries.tokens.lookup 1 = some ⟨5, 3, oneAddress, 5, 0, 0⟩ ∧
        accountOf s.currentBlock.tries oneAddress = none) (by decide +kernel)
  · exact exists_runWith byteCrypto (MintsLegible byteCrypto)
      [.deposit ⟨0, 5, oneAddressTwin⟩, .mint ⟨[twinDeposit], [], ⟨[1], [oneAddressTwin], []⟩⟩]
      (fun s => s.currentBlock.tries.tokens.lookup 1 = some ⟨5, 1, oneAddressTwin, 5, 0, 0⟩ ∧
        accountOf s.currentBlock.tries oneAddress = some ⟨[1], 5, 5⟩) (by decide +kernel)

/-! ## The accounts that a block leaves alone -/

/-- What `GetAccount` answers on a state database that was opened at a block. -/
def readAccount (b : Block) (a : Address) : Go (Except String Account) := do
  let (r, _) ← getAccount (mapStorage (stateAt b)) a ⟨newStateDB, ()⟩
  .ok r

/-- The answer depends on the entry of the short address only. -/
theorem readAccount_eq (b : Block) (a : Address) :
    readAccount b a = match b.tries.accounts.lookup (shortAddr a) with
      | none => .ok (.error "Not found")
      | some none => .ok (.error "EOF")
      | some (some A) => .ok (.ok A) := by
  have hkey : (stateAt b).accounts.lookup (shortAddr a) =
    b.tries.accounts.lookup (shortAddr a) := rfl
  unfold readAccount getAccount getAccountObject mapStorage
  rcases h : b.tries.accounts.lookup (shortAddr a) with _ | _ | A
  · simp only [hkey, h]
    rfl
  · simp only [hkey, h]
    rfl
  · simp only [hkey, h]
    rfl

/-- None of the transactions names an address with the key of this one. -/
def Avoids (a : Address) (txs : List Transaction) : Prop :=
  ∀ tx ∈ txs, shortAddr tx.prevOwner ≠ shortAddr a ∧ shortAddr tx.recipient ≠ shortAddr a

instance (a : Address) (txs : List Transaction) : Decidable (Avoids a txs) :=
  inferInstanceAs (Decidable (∀ tx ∈ txs, _))

/-- The accounts in the map are of addresses that the committed transactions name. -/
def Named (txs : List Tx) (o : Objects) : Prop :=
  ∀ addr, o.accountObjects.lookup addr ≠ none →
    ∃ tx ∈ plasmaTxs txs, addr = tx.prevOwner ∨ addr = tx.recipient

theorem Named.step {txs : List Tx} {tx : Tx} {o o' : Objects} (h : Named txs o)
    (heff : TxEffect C n T tx o o') : Named (txs ++ [tx]) o' := by
  intro addr haddr
  cases tx with
  | plasma tx =>
    obtain ⟨t, ha⟩ := heff
    rw [plasmaTxs_concat_plasma]
    by_cases hr : addr = tx.recipient
    · exact ⟨tx, by simp, .inr hr⟩
    · by_cases hp : addr = tx.prevOwner
      · exact ⟨tx, by simp, .inl hp⟩
      · rw [ha.others addr hr hp] at haddr
        obtain ⟨tx', htx', hn⟩ := h addr haddr
        exact ⟨tx', by simp [htx'], hn⟩
  | anchor tx =>
    have hs : SameLedger o o' := heff
    rw [hs.accountObjects] at haddr
    rw [plasmaTxs_concat_anchor]
    exact h addr haddr

/-- A block leaves the record under a key alone that its transactions do not name. -/
theorem Mints.account_of_notNamed {c : MintChoice} {m : Minting Unit} {T' : Tries} {key : Smt.Key}
    (h : Mints C c s s' m T') (hp : s.PoolChecked C) (hkey : ∀ tx ∈ s'.currentBlock.transactions,
      shortAddr tx.prevOwner ≠ key ∧ shortAddr tx.recipient ≠ key) :
    s'.currentBlock.tries.accounts.lookup key = s.currentBlock.tries.accounts.lookup key := by
  have hnamed : Named m.committed m.env.db.objects :=
    h.keeps hp (fun _ _ _ _ _ hI heff => hI.step heff) fun addr haddr => absurd rfl haddr
  rw [h.block] at hkey ⊢
  refine commit_account_other h.tries fun addr haddr => ?_
  obtain ⟨tx, htx, rfl | rfl⟩ := hnamed addr haddr
  · exact (hkey tx htx).1
  · exact (hkey tx htx).2

/-- A block leaves the account of an address alone that its transactions avoid. -/
theorem Mints.avoids {c : MintChoice} {m : Minting Unit} {T' : Tries} (h : Mints C c s s' m T')
    (hp : s.PoolChecked C) (ha : Avoids a s'.currentBlock.transactions) :
    readAccount s'.currentBlock a = readAccount s.currentBlock a := by
  rw [readAccount_eq, readAccount_eq, h.account_of_notNamed hp ha]

/-- Over every run whose blocks are legible: a block whose transactions name no address with the
same last 8 bytes leaves the answer of `GetAccount` for an address as it was. -/
theorem account_isolated (h : RunWith C (MintsLegible C) s) (a : Address) {i : ℕ} {b b' : Block}
    (hb : s.chain[i]? = some b) (hb' : s.chain[i + 1]? = some b')
    (ha : Avoids a b'.transactions) : readAccount b' a = readAccount b a := by
  have hn : ListRel.Neighbours (fun b b' => Avoids a b'.transactions →
      readAccount b' a = readAccount b a) s.chain :=
    h.neighbours fun hrun _ hm => hm.avoids hrun.poolChecked
  exact hn i b b' hb hb' ha

/-- A deposit to one address in the first block, and to another one in the second. -/
def farThenOne : List Op :=
  [.deposit ⟨0x100000, 7, farAddress⟩, .mint ⟨[farDeposit], [], ⟨[0x11], [farAddress], []⟩⟩]
    ++ twoBlocks.take 2

theorem farThenOne_run : ∃ s, RunWith byteCrypto (MintsLegible byteCrypto) s ∧
    ∃ b b', s.chain[1]? = some b ∧ s.chain[2]? = some b' ∧ b'.transactions = [oneDeposit] ∧
      readAccount b farAddress = .ok (.ok ⟨[0x11], 7, 7⟩) ∧
      readAccount b oneAddressTwin = .ok (.error "Not found") ∧
      readAccount b' oneAddressTwin = .ok (.ok ⟨[1], 5, 5⟩) := by
  obtain ⟨s, hrun, hQ⟩ := exists_runWith byteCrypto (MintsLegible byteCrypto) farThenOne
    (fun s => (s.chain[2]?).map Block.transactions = some [oneDeposit] ∧
      (s.chain[1]?).map (fun b => b.tries.accounts.lookup (shortAddr farAddress))
        = some (some (some ⟨[0x11], 7, 7⟩)) ∧
      (s.chain[1]?).map (fun b => b.tries.accounts.lookup (shortAddr oneAddressTwin))
        = some none ∧
      (s.chain[2]?).map (fun b => b.tries.accounts.lookup (shortAddr oneAddressTwin))
        = some (some (some ⟨[1], 5, 5⟩))) (by decide +kernel)
  obtain ⟨htx, h₁, h₂, h₃⟩ := hQ
  obtain ⟨b, hb, h₁⟩ := Option.map_eq_some_iff.mp h₁
  obtain ⟨b', hb', htx⟩ := Option.map_eq_some_iff.mp htx
  rw [hb, Option.map_some, Option.some.injEq] at h₂
  rw [hb', Option.map_some, Option.some.injEq] at h₃
  exact ⟨s, hrun, b, b', hb, hb', htx, by rw [readAccount_eq, h₁], by rw [readAccount_eq, h₂],
    by rw [readAccount_eq, h₃]⟩

/-- The second deposit leaves the account of the first depositor alone. -/
theorem account_isolated_farAddress : ∃ s b b', RunWith byteCrypto (MintsLegible byteCrypto) s ∧
    s.chain[1]? = some b ∧ s.chain[2]? = some b' ∧ b'.transactions = [oneDeposit] ∧
    Avoids farAddress b'.transactions ∧ readAccount b' farAddress = .ok (.ok ⟨[0x11], 7, 7⟩) := by
  obtain ⟨s, hrun, b, b', hb, hb', htx, hread, -⟩ := farThenOne_run
  have ha : Avoids farAddress b'.transactions := by
    rw [htx]
    decide
  exact ⟨s, b, b', hrun, hb, hb', htx, ha,
    (account_isolated hrun farAddress hb hb' ha).trans hread⟩

/-- The second deposit is for another address, but it gives the token to this one, too. -/
theorem account_not_isolated : ∃ s b b', RunWith byteCrypto (MintsLegible byteCrypto) s ∧
    s.chain[1]? = some b ∧ s.chain[2]? = some b' ∧
    (∀ tx ∈ b'.transactions, tx.prevOwner ≠ oneAddressTwin ∧ tx.recipient ≠ oneAddressTwin) ∧
    readAccount b oneAddressTwin = .ok (.error "Not found") ∧
    readAccount b' oneAddressTwin = .ok (.ok ⟨[1], 5, 5⟩) := by
  obtain ⟨s, hrun, b, b', hb, hb', htx, -, hold, hnew⟩ := farThenOne_run
  refine ⟨s, b, b', hrun, hb, hb', ?_, hold, hnew⟩
  rw [htx]
  decide

end GoPlasma.Plasma
