import GoPlasma.Plasma.Encoding
import GoPlasma.Plasma.ReceiptTheorems

/-!
# What raw transactions and chunks of blocks decode to

The strict decoder takes nothing but encodings, so that a string decodes to a transaction exactly if
it is its encoding (`decodeRLPTransaction_eq_some`). `BytesToTransaction` goes wrong twice: a string
that does not decode gives a nil pointer, which it dereferences, and a sum of `2 ^ 64` or more wraps
around.

The chunk of a block decodes to the block (`fromChunk_blockToChunk`).
-/

namespace GoPlasma.Plasma

/-! ## Transactions -/

/-- What is left of a transaction in its encoding. -/
def Transaction.stored (tx : Transaction) : Transaction := { tx with balance := 0 }

theorem Transaction.ofItem_fields (tx : Transaction) :
    Transaction.ofItem (.list (tx.fields tx.sig.1)) = some tx.stored := by
  simp only [Transaction.fields, Transaction.ofItem, decodeUint64_uint, decodeByteArray_str,
    decodeByteSlice_str, Option.bind_eq_bind, Option.bind_some]
  rfl

theorem Transaction.fields_of_ofItem {x : Rlp.Item} {tx : Transaction}
    (h : Transaction.ofItem x = some tx) : x = .list (tx.fields tx.sig.1) ∧ tx.stored = tx := by
  unfold Transaction.ofItem at h
  split at h
  · simp only [Option.bind_eq_bind, Option.bind_eq_some_iff] at h
    obtain ⟨_, h₁, _, h₂, _, h₃, _, h₄, _, h₅, _, h₆, _, h₇, _, h₈, _, h₉, h⟩ := h
    obtain rfl := Option.some.inj h
    rw [uint_of_decodeUint64 h₁, uint_of_decodeUint64 h₂, uint_of_decodeUint64 h₃,
      uint_of_decodeUint64 h₄, str_of_decodeByteArray h₅, str_of_decodeByteArray h₆,
      uint_of_decodeUint64 h₇, uint_of_decodeUint64 h₈, str_of_decodeByteSlice h₉]
    exact ⟨rfl, rfl⟩
  · cases h

theorem decodeRLPTransaction_bytes (tx : Transaction) :
    decodeRLPTransaction tx.bytes = some tx.stored := by
  rw [decodeRLPTransaction, Transaction.bytes, Rlp.decodeBytes_encode tx.length_bytes_lt]
  exact tx.ofItem_fields

/-- A string decodes to a transaction exactly if it is its encoding. -/
theorem decodeRLPTransaction_eq_some {b : Bytes} {tx : Transaction} :
    decodeRLPTransaction b = some tx ↔ b = tx.bytes ∧ tx.stored = tx := by
  constructor
  · intro h
    obtain ⟨x, hx, htx⟩ := Option.bind_eq_some_iff.mp h
    obtain ⟨rfl, hst⟩ := Transaction.fields_of_ofItem htx
    exact ⟨Rlp.encode_of_decodeBytes hx, hst⟩
  · rintro ⟨rfl, hst⟩
    rw [decodeRLPTransaction_bytes, hst]

/-- The encoding determines all but the balance. -/
theorem Transaction.stored_eq {tx tx' : Transaction} (h : tx.bytes = tx'.bytes) :
    tx.stored = tx'.stored := by
  have hdec := decodeRLPTransaction_bytes tx
  rw [h, decodeRLPTransaction_bytes] at hdec
  exact (Option.some.inj hdec).symm

/-! ## `BytesToTransaction` -/

/-- Allowance and spent are at most the denomination, as natural numbers. -/
def Transaction.Bounded (tx : Transaction) : Prop :=
  tx.allowance.toNat + tx.spent.toNat ≤ tx.denomination.toNat

/-- The sum of allowance and spent is a `uint64`, or what is left of it is still too large. -/
def Transaction.SumFits (tx : Transaction) : Prop :=
  tx.allowance.toNat + tx.spent.toNat < 2 ^ 64 ∨ tx.denomination < tx.allowance + tx.spent

/-- `BytesToTransaction` returns, says yes to the encodings of bounded transactions only, and then
returns the transaction with its balance. -/
def DecodesExactly (b : Bytes) : Prop :=
  ∃ ok tx, bytesToTransaction b = .ok (ok, tx) ∧
    (ok = true ↔ ∃ t : Transaction, b = t.bytes ∧ t.Bounded) ∧
    (ok = true → b = tx.bytes ∧
      tx.balance.toNat = tx.denomination.toNat - tx.allowance.toNat - tx.spent.toNat)

theorem bytesToTransaction_bytes (tx : Transaction) :
    bytesToTransaction tx.bytes =
      if tx.denomination < tx.allowance + tx.spent then .ok (false, tx.stored)
      else .ok (true, { tx with balance := tx.denomination - tx.allowance - tx.spent }) := by
  rw [bytesToTransaction, decodeRLPTransaction_bytes]
  rfl

theorem Transaction.Bounded.not_lt {tx : Transaction} (h : tx.Bounded) :
    ¬ tx.denomination < tx.allowance + tx.spent := by
  unfold Transaction.Bounded at h
  have hlt := tx.denomination.toNat_lt
  rw [UInt64.lt_iff_toNat_lt, UInt64.toNat_add, Nat.mod_eq_of_lt (by omega)]
  omega

theorem Transaction.Bounded.balance {tx : Transaction} (h : tx.Bounded) :
    (tx.denomination - tx.allowance - tx.spent).toNat =
      tx.denomination.toNat - tx.allowance.toNat - tx.spent.toNat := by
  unfold Transaction.Bounded at h
  have ha : tx.allowance ≤ tx.denomination := UInt64.le_iff_toNat_le.mpr (by omega)
  have hsub := UInt64.toNat_sub_of_le _ _ ha
  have hs : tx.spent ≤ tx.denomination - tx.allowance := by
    rw [UInt64.le_iff_toNat_le, hsub]
    omega
  rw [UInt64.toNat_sub_of_le _ _ hs, hsub]

theorem Transaction.bounded_of_bytes {tx tx' : Transaction} (h : tx.bytes = tx'.bytes)
    (hb : tx'.Bounded) : tx.Bounded := by
  have hst := Transaction.stored_eq h
  have hb' : tx'.stored.Bounded := hb
  rw [← hst] at hb'
  exact hb'

/-- A sum that does not wrap around is compared as it is. -/
theorem Transaction.SumFits.bounded_iff {tx : Transaction} (h : tx.SumFits) :
    tx.Bounded ↔ ¬ tx.denomination < tx.allowance + tx.spent := by
  refine ⟨Transaction.Bounded.not_lt, fun hnot => ?_⟩
  have hsum := h.resolve_right hnot
  rw [UInt64.lt_iff_toNat_lt, UInt64.toNat_add, Nat.mod_eq_of_lt hsum] at hnot
  unfold Transaction.Bounded
  omega

theorem decodesExactly_bytes {tx : Transaction} (h : tx.SumFits) : DecodesExactly tx.bytes := by
  have hiff : (∃ t : Transaction, tx.bytes = t.bytes ∧ t.Bounded) ↔ tx.Bounded :=
    ⟨fun ⟨_, ht, hb⟩ => Transaction.bounded_of_bytes ht hb, fun hb => ⟨tx, rfl, hb⟩⟩
  unfold DecodesExactly
  rw [bytesToTransaction_bytes, hiff, h.bounded_iff]
  by_cases hlt : tx.denomination < tx.allowance + tx.spent
  · rw [if_pos hlt]
    exact ⟨false, _, rfl, by simp [hlt], fun hok => by cases hok⟩
  · rw [if_neg hlt]
    exact ⟨true, _, rfl, by simp [hlt], fun _ => ⟨rfl, (h.bounded_iff.mpr hlt).balance⟩⟩

/-- For strings: exactly where the string decodes and the sum does not wrap around. -/
theorem decodesExactly_iff (b : Bytes) :
    DecodesExactly b ↔ ∃ t : Transaction, b = t.bytes ∧ t.SumFits := by
  constructor
  · rintro ⟨ok, tx, hrun, hok, -⟩
    rcases hd : decodeRLPTransaction b with _ | t
    · rw [bytesToTransaction, hd] at hrun
      cases hrun
    · obtain ⟨rfl, -⟩ := decodeRLPTransaction_eq_some.mp hd
      refine ⟨t, rfl, ?_⟩
      by_cases hlt : t.denomination < t.allowance + t.spent
      · exact Or.inr hlt
      · -- the answer is yes, so there is a bounded transaction, and it is this one
        rw [bytesToTransaction_bytes, if_neg hlt] at hrun
        obtain ⟨rfl, -⟩ := Prod.mk.inj (Except.ok.inj hrun)
        obtain ⟨t', ht', hb⟩ := hok.mp rfl
        have hbound := Transaction.bounded_of_bytes ht' hb
        unfold Transaction.Bounded at hbound
        exact Or.inl (lt_of_le_of_lt hbound t.denomination.toNat_lt)
  · rintro ⟨t, rfl, hfits⟩
    exact decodesExactly_bytes hfits

/-- The encoding of a transaction gives its fields and its hash back. -/
def RoundTrips (C : Crypto) (p : TransactionPtrs) : Prop :=
  ∃ tx : Transaction, bytesToTransaction p.bytes = .ok (true, tx) ∧
    tx.ptrs = { p with balance := p.denomination - p.allowance - p.spent } ∧
    tx.hash C = p.hash C

theorem roundTrips_iff (C : Crypto) {p : TransactionPtrs}
    (hb : p.allowance.toNat + p.spent.toNat ≤ p.denomination.toNat) :
    RoundTrips C p ↔ p.prevOwner.isSome = true ∧ p.recipient.isSome = true := by
  constructor
  · rintro ⟨tx, -, hptrs, -⟩
    have howner := congrArg TransactionPtrs.prevOwner hptrs
    have hrecipient := congrArg TransactionPtrs.recipient hptrs
    change some tx.prevOwner = p.prevOwner at howner
    change some tx.recipient = p.recipient at hrecipient
    rw [← howner, ← hrecipient]
    exact ⟨rfl, rfl⟩
  · rintro ⟨howner, hrecipient⟩
    obtain ⟨tokenID, denomination, depositIndex, prevBlock, _ | prevOwner, _ | recipient, allowance,
      spent, sig, balance⟩ := p
    · cases howner
    · cases howner
    · cases hrecipient
    · let tx : Transaction := ⟨tokenID, denomination, depositIndex, prevBlock, prevOwner, recipient,
        allowance, spent, sig, balance⟩
      have hbound : tx.Bounded := hb
      refine ⟨{ tx with balance := denomination - allowance - spent }, ?_, rfl, rfl⟩
      change bytesToTransaction tx.bytes = _
      rw [bytesToTransaction_bytes, if_neg hbound.not_lt]

/-- `BytesToTransaction` is safe and exact on the encodings of transactions whose sum does not wrap
around, and on no other strings; and the bounded transactions that it gives back are those that have
both addresses. -/
theorem bytesToTransaction_exact_iff (C : Crypto) :
    (∀ b, DecodesExactly b ↔ ∃ t : Transaction, b = t.bytes ∧ t.SumFits) ∧
    ∀ p : TransactionPtrs, p.allowance.toNat + p.spent.toNat ≤ p.denomination.toNat →
      (RoundTrips C p ↔ p.prevOwner.isSome = true ∧ p.recipient.isSome = true) :=
  ⟨decodesExactly_iff, fun _ hb => roundTrips_iff C hb⟩

theorem bytesToTransaction_exact_iff_deposit : RoundTrips smallCrypto smallDeposit.ptrs :=
  ((bytesToTransaction_exact_iff smallCrypto).2 smallDeposit.ptrs (by decide)).mpr ⟨rfl, rfl⟩

/-- Allowance and spent are `2 ^ 63` each, which is 0 as a `uint64`. -/
def wrappingTx : Transaction :=
  ⟨1, 0, 0, 0, zeroAddress, zeroAddress, 0x8000000000000000, 0x8000000000000000, emptySlice, 0⟩

theorem bytesToTransaction_unsafe : bytesToTransaction [] = .error .nilDereference ∧
    bytesToTransaction wrappingTx.bytes = .ok (true, wrappingTx) ∧
    wrappingTx.denomination.toNat < wrappingTx.allowance.toNat + wrappingTx.spent.toNat := by
  refine ⟨rfl, ?_, by decide⟩
  rw [bytesToTransaction_bytes, if_neg (by decide)]
  rfl

/-! ## Blocks -/

theorem EncHeader.ofItem_item (data : EncHeader) : EncHeader.ofItem data.item = some data := by
  simp only [EncHeader.item, EncHeader.ofItem, decodeUint64_uint, decodeByteArray_str,
    decodeByteSlice_str, Option.bind_eq_bind, Option.bind_some]

/-- The copies are undone, if the number is a `uint64`. -/
theorem Header.header_data {hdr : Header} (h : hdr.blockNumber < 2 ^ 64) :
    hdr.data.header = hdr := by
  have hnum : (UInt64.ofNat hdr.blockNumber).toNat = hdr.blockNumber := by
    rw [UInt64.toNat_ofNat']
    exact Nat.mod_eq_of_lt h
  obtain ⟨parentHash, blockNumber, time, bloomID, transactionRoot, tokenRoot, accountRoot,
    l3ChainRoot, anchorRoot, sig⟩ := hdr
  simp only [Header.data, EncHeader.header, Header.mk.injEq, true_and, and_true]
  exact hnum

/-- What is left of a body in its encoding. -/
def Body.stored (bo : Body) : Body :=
  ⟨bo.layer2Transactions.map Transaction.stored, bo.anchorTransactions⟩

theorem decodeListSlice_transactions (l : List Transaction) :
    decodeListSlice Transaction.ofItem (.list (l.map fun tx => .list (tx.fields tx.sig.1))) =
      some (l.map Transaction.stored) := by
  have hmap : l.map (fun tx => Rlp.Item.list (tx.fields tx.sig.1)) =
      (l.map Transaction.stored).map fun tx => .list (tx.fields tx.sig.1) := by
    rw [List.map_map]
    rfl
  rw [hmap]
  refine decodeListSlice_map fun tx htx => ?_
  obtain ⟨tx', -, rfl⟩ := List.mem_map.mp htx
  exact tx'.stored.ofItem_fields

theorem Body.ofItem_item {bo : Body} (h : ∀ tx ∈ bo.anchorTransactions, tx.blockHash.isSome) :
    Body.ofItem bo.item = some bo.stored := by
  have hanchors : decodeListSlice AnchorTransaction.ofItem
      (.list (bo.anchorTransactions.map AnchorTransaction.item)) = some bo.anchorTransactions :=
    decodeListSlice_map fun tx htx => by rw [AnchorTransaction.ofItem_item, if_pos (h tx htx)]
  simp only [Body.item, Body.ofItem, decodeListSlice_transactions, hanchors, Option.bind_eq_bind,
    Option.bind_some]
  rfl

/-- The chunk of a block decodes to the block. -/
theorem fromChunk_blockToChunk {b : ChunkBlock} (hnum : b.header.blockNumber < 2 ^ 64)
    (hanchors : ∀ tx ∈ b.body.anchorTransactions, tx.blockHash.isSome)
    (hlen : b.blockToChunk.length < 2 ^ 63) :
    fromChunk b.blockToChunk = some ⟨b.header, b.body.stored⟩ := by
  rw [fromChunk, ChunkBlock.blockToChunk, Rlp.decode_encode (lt_trans hlen (by norm_num))]
  simp only [ChunkBlock.item, ChunkBlock.ofItem, EncHeader.ofItem_item, Body.ofItem_item hanchors,
    Header.header_data hnum, Option.bind_eq_bind, Option.bind_some]

/-- The hash of a block covers no balances. -/
theorem ChunkBlock.hash_stored (C : Crypto) (b : ChunkBlock) :
    ChunkBlock.hash C ⟨b.header, b.body.stored⟩ = b.hash C := by
  rw [ChunkBlock.hash, ChunkBlock.hash, Body.stored]
  simp only [List.map_map]
  rfl

/-- What `WriteBlock` stores of a block of the node decodes to a block with its header and hash. -/
theorem SealedBlock.fromChunk_chunkBlock (C : Crypto) {b : SealedBlock}
    (hnum : b.header.blockNumber < 2 ^ 64)
    (hanchors : ∀ tx ∈ b.block.anchors, tx.blockHash.isSome)
    (hlen : b.chunkBlock.blockToChunk.length < 2 ^ 63) :
    ∃ b', fromChunk b.chunkBlock.blockToChunk = some b' ∧ b'.header = b.header ∧
      b'.hash C = b.hash C :=
  ⟨_, fromChunk_blockToChunk hnum hanchors hlen, rfl, b.chunkBlock.hash_stored C⟩

theorem AnchorTransaction.item_inj {tx tx' : AnchorTransaction} (h : tx.item = tx'.item) :
    tx = tx' := by
  have haddr : Function.Injective fun a : Address => Rlp.Item.str a.1 :=
    fun a a' h => Subtype.ext (Rlp.Item.str.inj h)
  obtain ⟨blockChainID, blockNumber, blockHash, ⟨addedOwners, removedOwners⟩, sig⟩ := tx
  obtain ⟨blockChainID', blockNumber', blockHash', ⟨addedOwners', removedOwners'⟩, sig'⟩ := tx'
  simp only [AnchorTransaction.item, AnchorTransaction.fields, Rlp.Item.list.injEq,
    List.cons.injEq, Rlp.Item.str.injEq, and_true] at h
  obtain ⟨hchain, hnum, hhash, ⟨hadded, hremoved⟩, hsig⟩ := h
  have hhash' : blockHash = blockHash' := by
    rcases blockHash with _ | h <;> rcases blockHash' with _ | h'
    · rfl
    · have hlen := congrArg List.length hhash
      rw [h'.2] at hlen
      cases hlen
    · have hlen := congrArg List.length hhash
      rw [h.2] at hlen
      cases hlen
    · rw [Subtype.ext hhash]
  rw [UInt64.toNat_inj.mp (Rlp.uint_inj hchain), UInt64.toNat_inj.mp (Rlp.uint_inj hnum), hhash',
    List.map_injective_iff.mpr haddr hadded, List.map_injective_iff.mpr haddr hremoved,
    Subtype.ext hsig]

theorem Transaction.stored_of_fields {tx tx' : Transaction}
    (h : Rlp.Item.list (tx.fields tx.sig.1) = .list (tx'.fields tx'.sig.1)) :
    tx.stored = tx'.stored :=
  Transaction.stored_eq (by rw [Transaction.bytes, h, Transaction.bytes])

theorem Header.data_inj {hdr hdr' : Header} (h : hdr.data.item = hdr'.data.item) :
    hdr.data = hdr'.data := by
  have hdec := EncHeader.ofItem_item hdr.data
  rw [h, EncHeader.ofItem_item] at hdec
  exact (Option.some.inj hdec).symm

/-- Lists with the same encodings. -/
theorem map_eq_of_items {α β : Type} {enc : α → Rlp.Item} {f : α → β}
    (hf : ∀ a a', enc a = enc a' → f a = f a') {l l' : List α} (h : l.map enc = l'.map enc) :
    l.map f = l'.map f := by
  induction l generalizing l' with
  | nil =>
    rw [List.map_nil, eq_comm, List.map_eq_nil_iff] at h
    rw [h]
  | cons a l ih =>
    rcases l' with _ | ⟨a', l'⟩
    · cases h
    · rw [List.map_cons, List.map_cons, List.cons.injEq] at h
      rw [List.map_cons, List.map_cons, hf a a' h.1, ih h.2]

/-- The chunk determines the block. -/
theorem blockToChunk_inj {b b' : ChunkBlock} (hnum : b.header.blockNumber < 2 ^ 64)
    (hnum' : b'.header.blockNumber < 2 ^ 64) (hlen : b.blockToChunk.length < 2 ^ 63)
    (h : b.blockToChunk = b'.blockToChunk) :
    b.header = b'.header ∧ b.body.stored = b'.body.stored := by
  have hlen₁ : (Rlp.encode b.item).length < 2 ^ 64 := lt_trans hlen (by norm_num)
  have hitem := Rlp.encode_inj hlen₁ h
  simp only [ChunkBlock.item, Rlp.Item.list.injEq, List.cons.injEq, and_true, Body.item] at hitem
  obtain ⟨hheader, htxs, hanchors⟩ := hitem
  refine ⟨?_, ?_⟩
  · rw [← Header.header_data hnum, Header.data_inj hheader, Header.header_data hnum']
  · have ha : b.body.anchorTransactions = b'.body.anchorTransactions :=
      List.map_injective_iff.mpr (fun _ _ => AnchorTransaction.item_inj) hanchors
    rw [Body.stored, Body.stored, ha,
      map_eq_of_items (fun _ _ => Transaction.stored_of_fields) htxs]

/-- The chunk of a block gives the block back, with the same hashes and the same signer, and blocks
with the same chunk are the same. The number of a block is a `uint64` and the length of a chunk an
`int`. The balances of transactions are in no encoding. -/
theorem block_chunk_roundtrip (C : Crypto) :
    (∀ b : ChunkBlock, b.header.blockNumber < 2 ^ 64 → b.blockToChunk.length < 2 ^ 63 →
      (∀ tx ∈ b.body.anchorTransactions, tx.blockHash ≠ none) →
      ∃ b', fromChunk b.blockToChunk = some b' ∧ b'.header = b.header ∧
        b'.body.layer2Transactions =
          b.body.layer2Transactions.map (fun tx => { tx with balance := 0 }) ∧
        b'.body.anchorTransactions = b.body.anchorTransactions ∧ b'.hash C = b.hash C ∧
        b'.header.hash C = b.header.hash C ∧ b'.header.getSigner C = b.header.getSigner C) ∧
    ∀ b b' : ChunkBlock, b.header.blockNumber < 2 ^ 64 → b'.header.blockNumber < 2 ^ 64 →
      b.blockToChunk.length < 2 ^ 63 → b.blockToChunk = b'.blockToChunk →
      b.header = b'.header ∧
        b.body.layer2Transactions.map (fun tx => { tx with balance := 0 }) =
          b'.body.layer2Transactions.map (fun tx => { tx with balance := 0 }) ∧
        b.body.anchorTransactions = b'.body.anchorTransactions := by
  refine ⟨?_, ?_⟩
  · intro b hnum hlen hanchors
    refine ⟨_, fromChunk_blockToChunk hnum
      (fun tx htx => Option.isSome_iff_ne_none.mpr (hanchors tx htx)) hlen, rfl, rfl, rfl,
      b.hash_stored C, rfl, rfl⟩
  · intro b b' hnum hnum' hlen h
    obtain ⟨hheader, hbody⟩ := blockToChunk_inj hnum hnum' hlen h
    exact ⟨hheader, congrArg Body.layer2Transactions hbody,
      (congrArg Body.anchorTransactions hbody :
        b.body.stored.anchorTransactions = b'.body.stored.anchorTransactions)⟩

/-- A block with a deposit and an anchor. -/
def mixedBlock : ChunkBlock :=
  ⟨{ zeroHeader with blockNumber := 1 },
    ⟨[smallDeposit], [⟨1, 0, some zeroHash, ⟨[zeroAddress], []⟩, zeroSig⟩]⟩⟩

theorem block_chunk_roundtrip_mixed : ∃ b', fromChunk mixedBlock.blockToChunk = some b' ∧
    b'.header = mixedBlock.header ∧
    b'.body.anchorTransactions = mixedBlock.body.anchorTransactions ∧
    b'.hash smallCrypto = mixedBlock.hash smallCrypto := by
  have hlen : mixedBlock.blockToChunk.length < 1000 := by decide +kernel
  obtain ⟨b', hb', hheader, -, hanchors, hhash, -⟩ :=
    (block_chunk_roundtrip smallCrypto).1 mixedBlock
    (by decide) (lt_trans hlen (by norm_num)) (by decide)
  exact ⟨b', hb', hheader, hanchors, hhash⟩

end GoPlasma.Plasma
