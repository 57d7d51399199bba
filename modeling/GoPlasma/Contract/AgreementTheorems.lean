import GoPlasma.Contract.TransactionTheorems
import GoPlasma.Plasma.HistoryTheorems

/-!
# Transactions on both layers

The root chain reads the transactions that the child chain has encoded. `transaction_agrees`: it
finds the same fields, token and hashes. `exitable_iff`: which transactions in the blocks of the
child chain it accepts. The child chain adds the amounts modulo 2^64 and takes recovery values up
to 3; the root chain fails on an amount that overflows and knows the recovery values 0 and 1 only.
-/

namespace GoPlasma.Contract

open Plasma (Address Crypto Block Pooled addressOfPub recoverSigner_eq_ok zeroAddress byteCrypto
  oneAddress oneDeposit oneTransfer)

variable {C : Crypto} {E : Evm} {tx : Plasma.Transaction}

/-! ## Hashes -/

/-- The token that a deposit names is the same number on both layers. -/
theorem tokenHash_eq (hk : E.keccak = C.keccak) (a : Address) (depositIndex denomination : UInt64) :
    tokenHash E a depositIndex denomination = Plasma.tokenKey C depositIndex denomination a := by
  have hlow : ∀ h : Hash, lowWord h = bytesToUint64 (h.1.drop 24) := by
    intro h
    have hlen : (h.1.drop 24).length = 8 := by rw [List.length_drop, h.2]
    have hsplit : Bytes.ofBE h.1 =
        Bytes.ofBE (h.1.take 24) * 2 ^ 64 + Bytes.ofBE (h.1.drop 24) := by
      rw [← List.take_append_drop 24 h.1, Bytes.ofBE_append, List.take_append_drop, hlen]
      rfl
    rw [lowWord, bytesToUint64, List.take_of_length_le hlen.le, ← UInt64.toNat_inj,
      UInt64.toNat_ofNat', UInt64.toNat_ofNat', hsplit, Nat.mul_add_mod']
  rw [tokenHash, Plasma.tokenKey, hk, hlow]

/-- The message that is signed is the same on both layers. -/
theorem signHash_eq (hk : E.keccak = C.keccak) (h : Hash) :
    Plasma.signHash C h.1 = (E.keccak ( messagePrefix ++ h.1)).1 := by
  have hmessage : Plasma.ascii ("\x19Ethereum Signed Message:\n" ++ toString h.1.length) =
      messagePrefix := by
    rw [h.2]
    rfl
  rw [Plasma.signHash, hmessage, hk]

/-! ## Amounts -/

/-- The amounts that a transaction gives away are covered by its denomination. -/
def Covered (tx : Plasma.Transaction) : Prop :=
  tx.allowance.toNat + tx.spent.toNat ≤ tx.denomination.toNat

instance (tx : Plasma.Transaction) : Decidable (Covered tx) :=
  inferInstanceAs (Decidable (_ ≤ _))

/-- `parseTx` fails exactly on amounts that are not covered. -/
theorem parseTx_bytes_iff (behind : Memory) :
    (∃ p, parseTx behind tx.bytes = .ok p) ↔ Covered tx := by
  rw [parseTx_bytes]
  constructor
  · rintro ⟨p, h⟩
    obtain ⟨rest, hrest, h⟩ := bind_eq_ok.mp h
    obtain ⟨balance, hbalance, -⟩ := bind_eq_ok.mp h
    obtain ⟨hle, rfl⟩ := uint64Sub_eq_ok.mp hrest
    obtain ⟨hle', -⟩ := uint64Sub_eq_ok.mp hbalance
    rw [UInt64.le_iff_toNat_le, UInt64.toNat_sub_of_le _ _ hle] at hle'
    rw [UInt64.le_iff_toNat_le] at hle
    unfold Covered
    omega
  · intro h
    unfold Covered at h
    have hle : tx.allowance ≤ tx.denomination := by
      rw [UInt64.le_iff_toNat_le]
      omega
    have hle' : tx.spent ≤ tx.denomination - tx.allowance := by
      rw [UInt64.le_iff_toNat_le, UInt64.toNat_sub_of_le _ _ hle]
      omega
    exact ⟨_, bind_eq_ok.mpr ⟨_, uint64Sub_eq_ok.mpr ⟨hle, rfl⟩,
      bind_eq_ok.mpr ⟨_, uint64Sub_eq_ok.mpr ⟨hle', rfl⟩, rfl⟩⟩⟩

/-- The balance that `parseTx` finds. -/
theorem balance_of_parseTx {behind : Memory} {p : PlasmaTx} (h : parseTx behind tx.bytes = .ok p) :
    ∃ balance, p = parsed tx balance ∧
      balance.toNat = tx.denomination.toNat - tx.allowance.toNat - tx.spent.toNat := by
  rw [parseTx_bytes] at h
  obtain ⟨rest, hrest, h⟩ := bind_eq_ok.mp h
  obtain ⟨balance, hbalance, h⟩ := bind_eq_ok.mp h
  obtain ⟨hle, rfl⟩ := uint64Sub_eq_ok.mp hrest
  obtain ⟨hle', rfl⟩ := uint64Sub_eq_ok.mp hbalance
  refine ⟨_, (Except.ok.inj h).symm, ?_⟩
  rw [UInt64.toNat_sub_of_le _ _ hle', UInt64.toNat_sub_of_le _ _ hle]

/-- The sum that `verifyTx` checks of a covered transaction. -/
theorem Covered.uint64Add (h : Covered tx) :
    ∃ used, Contract.uint64Add tx.allowance tx.spent = .ok used ∧ ¬ tx.denomination < used := by
  unfold Covered at h
  have hlt := tx.denomination.toNat_lt
  have hsum : (tx.allowance + tx.spent).toNat = tx.allowance.toNat + tx.spent.toNat := by
    rw [UInt64.toNat_add, Nat.mod_eq_of_lt (by omega)]
  refine ⟨tx.allowance + tx.spent, require_bind_eq_ok.mpr ⟨?_, rfl⟩, ?_⟩
  · rw [UInt64.le_iff_toNat_le]
    omega
  · rw [UInt64.lt_iff_toNat_lt]
    omega

/-! ## The same transaction on both layers -/

/-- What the root chain reads of a transaction of the child chain: the same fields, the balance, the
hash that is signed, the hash of the transaction, and for a deposit the token. -/
theorem transaction_agrees (hk : E.keccak = C.keccak) (h : Covered tx) (behind : Memory) :
    (∃ p, parseTx behind tx.bytes = .ok p ∧
      p.tokenID = tx.tokenID ∧ p.denomination = tx.denomination ∧
      p.depositIndex = tx.depositIndex ∧ p.prevBlock = tx.prevBlock ∧
      p.prevOwner = tx.prevOwner ∧ p.recipient = tx.recipient ∧
      p.allowance = tx.allowance ∧ p.spent = tx.spent ∧
      p.balance.toNat = tx.denomination.toNat - tx.allowance.toNat - tx.spent.toNat) ∧
    (∃ rlpTx, txItems behind tx.bytes = .ok rlpTx ∧
      E.keccak (unsignedTx behind tx.bytes rlpTx) = tx.shortHash C) ∧
    E.keccak tx.bytes = tx.hash C ∧
    (tx.prevBlock = 0 → verifyTx behind tx.bytes E =
      .ok (decide (Plasma.tokenKey C tx.depositIndex tx.denomination tx.recipient =
        tx.tokenID))) := by
  refine ⟨?_, ?_, ?_, fun h0 => ?_⟩
  · obtain ⟨p, hp⟩ := (parseTx_bytes_iff behind).mpr h
    obtain ⟨balance, rfl, hbalance⟩ := balance_of_parseTx hp
    exact ⟨_, hp, rfl, rfl, rfl, rfl, rfl, rfl, rfl, rfl, hbalance⟩
  · obtain ⟨rlpTx, hr⟩ := exists_readsTx tx behind
    refine ⟨rlpTx, hr.items, ?_⟩
    rw [hr.unsigned, hk]
    rfl
  · rw [hk]
    rfl
  · rw [verifyTx_bytes, if_pos h0, tokenHash_eq hk]

/-- The EVM of the root chain below: the hash of the child chain, and its one key. -/
def byteEvm : Evm := ⟨byteCrypto.keccak, fun _ _ _ _ => oneAddress⟩

/-- The deposit of token 1. -/
theorem transaction_agrees_oneDeposit : Covered oneDeposit ∧ oneDeposit.prevBlock = 0 ∧
    (∃ p, parseTx (fun _ => 0) oneDeposit.bytes = .ok p ∧ p.tokenID = 1 ∧ p.balance.toNat = 5) ∧
    verifyTx (fun _ => 0) oneDeposit.bytes byteEvm = .ok true := by
  have hc : Covered oneDeposit := by decide
  obtain ⟨⟨p, hp, hid, -, -, -, -, -, -, -, hbalance⟩, -, -, hverify⟩ :=
    transaction_agrees (C := byteCrypto) (E := byteEvm) rfl hc fun _ => 0
  refine ⟨hc, rfl, ⟨p, hp, hid, hbalance⟩, ?_⟩
  rw [hverify rfl]
  rfl

/-! ## Signatures -/

/-- The two layers hash alike, and recover alike on the recovery values that both accept. The child
chain refuses signatures that are not 65 bytes long or whose recovery value is not below 4
(`checkSignature` of `secp256k1`). -/
structure SameRecovery (C : Crypto) (E : Evm) : Prop where
  keccak : E.keccak = C.keccak
  checked : ∀ hash sig pub, C.ecrecover hash sig = .ok pub →
    sig.length = 65 ∧ (sig.getD 64 0).toNat < 4
  same : ∀ (hash : Hash) sig pub, C.ecrecover hash.1 sig = .ok (4 :: pub) →
    (sig.getD 64 0).toNat ≤ 1 →
    E.ecrecover hash (sig.getD 64 0 + 27) (bytes32 sig) (bytes32 (sig.drop 32)) = addressOfPub C pub

/-- The signature has a recovery value that the root chain knows. -/
def Recoverable (tx : Plasma.Transaction) : Prop := (tx.sig.1.getD 64 0).toNat ≤ 1

instance (tx : Plasma.Transaction) : Decidable (Recoverable tx) :=
  inferInstanceAs (Decidable (_ ≤ _))

/-- What the root chain recovers from a signature that the child chain has accepted. -/
theorem recover_shortHash (hE : SameRecovery C E) {a : Address} (h : tx.getSigner C = .ok a) :
    recover E (tx.shortHash C) tx.sig.1 = if Recoverable tx then a else zeroAddress := by
  obtain ⟨pub, hpub, rfl⟩ := recoverSigner_eq_ok h
  obtain ⟨hlen, hlt⟩ := hE.checked _ _ _ hpub
  rw [signHash_eq hE.keccak] at hpub
  have hv : (tx.sig.1.getD 64 0) < 27 := by
    rw [UInt8.lt_iff_toNat_lt]
    exact lt_trans hlt (by decide)
  have hadd : (tx.sig.1.getD 64 0 + 27).toNat = (tx.sig.1.getD 64 0).toNat + 27 := by
    rw [UInt8.toNat_add]
    exact Nat.mod_eq_of_lt (by change _ + 27 < 256; omega)
  have hknown : (tx.sig.1.getD 64 0 + 27 ≠ 27 ∧ tx.sig.1.getD 64 0 + 27 ≠ 28) ↔
      ¬ Recoverable tx := by
    rw [Ne, Ne, ← UInt8.toNat_inj, ← UInt8.toNat_inj, hadd, Recoverable]
    change ¬ _ + 27 = 27 ∧ ¬ _ + 27 = 28 ↔ _
    omega
  simp only [recover, if_neg (not_not.mpr hlen), if_pos hv, hknown]
  by_cases hr : Recoverable tx
  · rw [if_neg (not_not.mpr hr), if_pos hr]
    exact hE.same _ _ _ hpub hr
  · rw [if_pos hr, if_neg hr]

/-! ## What can be exited -/

/-- The root chain reads the transaction, and it passes the check. -/
def Exitable (E : Evm) (behind : Memory) (tx : Plasma.Transaction) : Prop :=
  (∃ p, parseTx behind tx.bytes = .ok p) ∧ verifyTx behind tx.bytes E = .ok true

/-- A transaction that was checked for the pool can be exited exactly if its amounts are covered and
it is a deposit, or its recovery value is known to the root chain, or its previous owner is the zero
address, which the root chain recovers from other signatures. -/
theorem exitable_of_pooled (hE : SameRecovery C E) (hp : Pooled C tx) (behind : Memory) :
    Exitable E behind tx ↔
      Covered tx ∧ (tx.prevBlock = 0 ∨ Recoverable tx ∨ tx.prevOwner = zeroAddress) := by
  rw [Exitable, parseTx_bytes_iff, verifyTx_bytes]
  refine and_congr_right fun hc => ?_
  by_cases h0 : tx.prevBlock = 0
  · rw [if_pos h0, tokenHash_eq hE.keccak]
    simp [h0, hp.deposit h0]
  · obtain ⟨used, hused, hle⟩ := hc.uint64Add
    have hhash : E.keccak (Rlp.encode (.list (tx.fields []))) = tx.shortHash C := by
      rw [hE.keccak]
      rfl
    rw [if_neg h0, hused, ok_bind, if_neg hle, hhash, recover_shortHash hE (hp.signer h0)]
    by_cases hr : Recoverable tx
    · simp [hr]
    · simp [h0, hr, eq_comm]

/-- The transactions in the blocks of the child chain that can be exited on the root chain. -/
theorem exitable_iff (hE : SameRecovery C E) {s : Plasma.Node} (h : Plasma.Run C s) {b : Block}
    (hb : b ∈ s.chain) (htx : tx ∈ b.transactions) (behind : Memory) :
    Exitable E behind tx ↔
      Covered tx ∧ (tx.prevBlock = 0 ∨ Recoverable tx ∨ tx.prevOwner = zeroAddress) :=
  exitable_of_pooled hE (h.chainChecked hb htx) behind

/-! ### Transfers of token 1 -/

/-- One key, whose signatures are 65 bytes long with a recovery value below 4. -/
def checkedCrypto : Crypto :=
  { byteCrypto with
    ecrecover := fun _ sig =>
      if sig.length ≠ 65 then .error "invalid signature length"
      else if 4 ≤ (sig.getD 64 0).toNat then .error "invalid signature recovery id"
      else .ok [4] }

theorem sameRecovery_byteEvm : SameRecovery checkedCrypto byteEvm where
  keccak := rfl
  checked hash sig pub h := by
    simp only [checkedCrypto] at h
    split_ifs at h with hlen hv
    exact ⟨not_not.mp hlen, not_le.mp hv⟩
  same hash sig pub h _ := by
    simp only [checkedCrypto] at h
    split_ifs at h
    cases h
    rfl

/-- The deposit of token 1 in the first block, and a transfer that is sent after it. -/
def transferOps (tx : Plasma.Transaction) : List Plasma.Op :=
  [.deposit ⟨0, 5, oneAddress⟩, .mint ⟨[oneDeposit], [], ⟨[1], [oneAddress], []⟩⟩,
    .send tx, .mint ⟨[tx], [], ⟨[1], [oneAddress, zeroAddress], []⟩⟩]

/-- The transfer is in a block of the child chain. -/
def Includes (tx : Plasma.Transaction) (s : Plasma.Node) : Prop :=
  ∃ b ∈ s.chain, tx ∈ b.transactions

instance (tx : Plasma.Transaction) (s : Plasma.Node) : Decidable (Includes tx s) :=
  inferInstanceAs (Decidable (∃ b ∈ s.chain, tx ∈ b.transactions))

set_option maxRecDepth 8000 in
/-- The transfer of token 1 can be exited. -/
theorem exitable_iff_oneTransfer : ∃ s, Plasma.exec checkedCrypto Plasma.newNode
      (transferOps oneTransfer) = .ok s ∧ Includes oneTransfer s ∧
    SameRecovery checkedCrypto byteEvm ∧ ∀ behind, Exitable byteEvm behind oneTransfer := by
  obtain ⟨s, hs, b, hb, htx⟩ : ∃ s, Plasma.exec checkedCrypto Plasma.newNode
      (transferOps oneTransfer) = .ok s ∧ Includes oneTransfer s := ⟨_, rfl, by decide +kernel⟩
  have hrun : Plasma.Run checkedCrypto s := Plasma.Run.exec _ .new hs
  exact ⟨s, hs, ⟨b, hb, htx⟩, sameRecovery_byteEvm, fun behind =>
    (exitable_iff sameRecovery_byteEvm hrun hb htx behind).mpr (by decide)⟩

/-- The allowance and the balance of this transfer add up to 5 modulo 2^64. -/
def overflowingTransfer : Plasma.Transaction :=
  { oneTransfer with allowance := 0xFFFFFFFFFFFFFFFF, balance := 6 }

/-- The recovery value of this transfer is 2. -/
def thirdValueTransfer : Plasma.Transaction :=
  { oneTransfer with sig := ⟨Bytes.zeros 64 ++ [2], by simp⟩ }

set_option maxRecDepth 8000 in
/-- Both are sent, checked and put into a block. The root chain fails to read the first one, and
finds that the second one is not signed by the previous owner. -/
theorem included_not_exitable : SameRecovery checkedCrypto byteEvm ∧
    (∃ s, Plasma.exec checkedCrypto Plasma.newNode (transferOps overflowingTransfer) = .ok s ∧
      Includes overflowingTransfer s ∧
      ∀ behind, ¬ ∃ p, parseTx behind overflowingTransfer.bytes = .ok p) ∧
    ∃ s, Plasma.exec checkedCrypto Plasma.newNode (transferOps thirdValueTransfer) = .ok s ∧
      Includes thirdValueTransfer s ∧
      ∀ behind, verifyTx behind thirdValueTransfer.bytes byteEvm = .ok false := by
  refine ⟨sameRecovery_byteEvm, ⟨_, rfl, by decide +kernel, fun behind => ?_⟩,
    _, rfl, by decide +kernel, fun behind => ?_⟩
  · rw [parseTx_bytes_iff]
    decide
  · rw [verifyTx_bytes]
    decide +kernel

end GoPlasma.Contract
