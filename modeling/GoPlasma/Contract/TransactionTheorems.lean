import GoPlasma.Contract.Transaction

/-!
# Reading what the child chain writes

`RLP.sol` finds in the encoding of a transaction the nine fields that were written, whatever the
memory holds behind it: `parseTx_bytes`. The reader trusts the lengths in the bytes, and those of
an encoding are right. `Holds` says which bytes stand at an offset, and `ReadsAs` what the reader
makes of an item there.
-/

namespace GoPlasma.Contract

open Plasma (Address)
open Rlp (encode encodeAll header byteLength minBE)

variable {mem : Memory} {ptr : ℕ}

/-! ## Bytes in memory -/

/-- The bytes stand at the offset. -/
def Memory.Holds (mem : Memory) (offset : ℕ) (b : Bytes) : Prop := mem.read offset b.length = b

theorem Memory.read_add (mem : Memory) (offset m n : ℕ) :
    mem.read offset (m + n) = mem.read offset m ++ mem.read (offset + m) n := by
  simp [Memory.read, List.range_add, Nat.add_assoc]

theorem Memory.holds_append {a b : Bytes} :
    mem.Holds ptr (a ++ b) ↔ mem.Holds ptr a ∧ mem.Holds (ptr + a.length) b := by
  rw [Memory.Holds, List.length_append, Memory.read_add]
  constructor
  · intro h
    exact List.append_inj h (Memory.length_read _ _ _)
  · rintro ⟨ha, hb⟩
    rw [ha, hb]

theorem Memory.holds_cons {c : UInt8} {b : Bytes} :
    mem.Holds ptr (c :: b) ↔ mem ptr = c ∧ mem.Holds (ptr + 1) b := by
  rw [← List.singleton_append, Memory.holds_append]
  simp [Memory.Holds, Memory.read]

theorem Memory.Holds.number {b : Bytes} (h : mem.Holds ptr b) {n : ℕ} (hn : n = b.length) :
    mem.number ptr n = Bytes.ofBE b := by
  rw [Memory.number, hn, h]

/-- A byte array holds its bytes. -/
theorem holds_memoryOf (data : Bytes) (behind : Memory) : (memoryOf data behind).Holds 0 data := by
  rw [Memory.Holds, read_memoryOf (by omega), Bytes.slice_zero_self]

/-! ## Headers -/

theorem toNat_ofNat_of_lt {n : ℕ} (h : n < 256) : (UInt8.ofNat n).toNat = n := by
  rw [UInt8.toNat_ofNat']
  omega

/-- A short header. -/
theorem holds_header_short {base n : ℕ} (hbase : base ≤ 0xC0) (hn : n < 56)
    (h : mem.Holds ptr (header base n)) : (mem ptr).toNat = base + n := by
  rw [header, if_pos hn, Memory.holds_cons] at h
  rw [h.1, toNat_ofNat_of_lt (by omega)]

/-- A long header: the first byte, and the length behind it. -/
theorem holds_header_long {base n : ℕ} (hbase : base ≤ 0xC0) (hn : ¬ n < 56) (hn' : n < 2 ^ 64)
    (h : mem.Holds ptr (header base n)) :
    (mem ptr).toNat = base + 55 + byteLength n ∧ mem.number (ptr + 1) (byteLength n) = n := by
  have hlen := Rlp.byteLength_le hn'
  rw [header, if_neg hn, Memory.holds_cons] at h
  refine ⟨?_, ?_⟩
  · rw [h.1, toNat_ofNat_of_lt (by omega)]
  · rw [h.2.number (Rlp.length_minBE n).symm, Rlp.ofBE_minBE]

theorem length_header (base n : ℕ) :
    (header base n).length = if n < 56 then 1 else 1 + byteLength n := by
  unfold header
  split_ifs
  · rfl
  · rw [List.length_cons, Rlp.length_minBE, Nat.add_comm]

/-! ## Items -/

/-- The item is the encoding of a byte string. -/
structure ReadsAs (mem : Memory) (item : RLPItem) (b : Bytes) : Prop where
  isData : isData mem item = true
  size : (decode mem item).2 = b.length
  data : mem.Holds (decode mem item).1 b
  bytes : toBytes mem item = encode (.str b)

/-- What the reader makes of a byte that is its own encoding. -/
theorem readsAs_ownCode {c : UInt8} (hc : c.toNat < 0x80) (he : encode (.str [c]) = [c])
    (h : mem.Holds ptr [c]) : itemLength mem ptr = 1 ∧ ReadsAs mem ⟨ptr, 1⟩ [c] := by
  have hm : mem ptr = c := (Memory.holds_cons.mp h).1
  have hlt : (mem ptr).toNat < 0x80 := by
    rw [hm]
    exact hc
  refine ⟨by rw [itemLength, if_pos hlt], ?_, ?_, ?_, ?_⟩
  · simp only [GoPlasma.Contract.isData, decide_eq_true_eq]
    omega
  · simp only [decode, if_pos hlt, List.length_singleton]
  · simp only [decode, if_pos hlt]
    exact h
  · rw [he]
    exact h

/-- What it makes of a string whose length is in the first byte. -/
theorem readsAs_short {b : Bytes} {n : ℕ} (hn : n = 1 + b.length) (hshort : b.length < 56)
    (h0 : (mem ptr).toNat = 0x80 + b.length) (hdata : mem.Holds (ptr + 1) b)
    (hbytes : toBytes mem ⟨ptr, n⟩ = encode (.str b)) :
    itemLength mem ptr = n ∧ ReadsAs mem ⟨ptr, n⟩ b := by
  have hne : ¬ (mem ptr).toNat < 0x80 := by omega
  have hlt : (mem ptr).toNat < 0xB8 := by omega
  refine ⟨?_, ?_, ?_, ?_, hbytes⟩
  · rw [itemLength, if_neg hne, if_pos hlt]
    omega
  · simp only [GoPlasma.Contract.isData, decide_eq_true_eq]
    omega
  · simp only [decode, if_neg hne, if_pos hlt]
    omega
  · simp only [decode, if_neg hne, if_pos hlt]
    exact hdata

/-- What it makes of a string whose length comes in `l` bytes after the first one. -/
theorem readsAs_long {b : Bytes} {n l : ℕ} (hpos : 0 < l) (hle : l ≤ 8)
    (hn : n = 1 + l + b.length) (h0 : (mem ptr).toNat = 0x80 + 55 + l)
    (hnumber : mem.number (ptr + 1) l = b.length) (hdata : mem.Holds (ptr + (1 + l)) b)
    (hbytes : toBytes mem ⟨ptr, n⟩ = encode (.str b)) :
    itemLength mem ptr = n ∧ ReadsAs mem ⟨ptr, n⟩ b := by
  have hne : ¬ (mem ptr).toNat < 0x80 := by omega
  have hne' : ¬ (mem ptr).toNat < 0xB8 := by omega
  have hlt : (mem ptr).toNat < 0xC0 := by omega
  have hsize : (mem ptr).toNat - 0xB7 = l := by omega
  refine ⟨?_, ?_, ?_, ?_, hbytes⟩
  · rw [itemLength, if_neg hne, if_neg hne', if_pos hlt, hsize, hnumber]
    omega
  · simp only [GoPlasma.Contract.isData, decide_eq_true_eq]
    omega
  · simp only [decode, if_neg hne, if_neg hne', hsize]
    omega
  · simp only [decode, if_neg hne, if_neg hne', hsize]
    have hptr : ptr + l + 1 = ptr + (1 + l) := by omega
    rw [hptr]
    exact hdata

/-- What the reader makes of the encoding of a byte string. -/
theorem readsAs_of_holds {b : Bytes} (hb : b.length < 2 ^ 64)
    (h : mem.Holds ptr (encode (.str b))) :
    itemLength mem ptr = (encode (.str b)).length ∧
      ReadsAs mem ⟨ptr, (encode (.str b)).length⟩ b := by
  have hbytes : toBytes mem ⟨ptr, (encode (.str b)).length⟩ = encode (.str b) := h
  obtain ⟨c, hc, rfl, he⟩ | he := Rlp.encode_str_cases b
  · rw [he] at h ⊢
    exact readsAs_ownCode hc he h
  · rw [he] at h
    obtain ⟨hheader, hdata⟩ := Memory.holds_append.mp h
    have hlen : (encode (.str b)).length = (header 0x80 b.length).length + b.length := by
      rw [he, List.length_append]
    rw [length_header] at hlen hdata
    by_cases hshort : b.length < 56
    · rw [if_pos hshort] at hlen hdata
      have h0 := holds_header_short (by norm_num) hshort hheader
      exact readsAs_short hlen hshort h0 hdata hbytes
    · rw [if_neg hshort] at hlen hdata
      obtain ⟨h0, hnumber⟩ := holds_header_long (by norm_num) hshort hb hheader
      exact readsAs_long (Rlp.byteLength_pos (by omega)) (Rlp.byteLength_le hb) hlen h0 hnumber
        hdata hbytes

theorem ReadsAs.toUint {item : RLPItem} {b : Bytes} (h : ReadsAs mem item b) (hb : b.length ≤ 32) :
    toUint mem item = .ok (Bytes.ofBE b) := by
  rw [GoPlasma.Contract.toUint, require_bind_eq_ok, require_bind_eq_ok, h.size]
  exact ⟨h.isData, hb, by rw [h.data.number rfl]⟩

theorem ReadsAs.toAddress {item : RLPItem} {a : Address} (h : ReadsAs mem item a.1) :
    toAddress mem item = .ok a := by
  have hlen : a.1.length = 20 := a.2
  rw [GoPlasma.Contract.toAddress, require_bind_eq_ok, require_bind_eq_ok]
  refine ⟨h.isData, h.size.trans hlen, congrArg Except.ok (Subtype.ext ?_)⟩
  have hdata := h.data
  rw [Memory.Holds, hlen] at hdata
  exact hdata

theorem ReadsAs.toData {item : RLPItem} {b : Bytes} (h : ReadsAs mem item b) :
    toData mem item = .ok b := by
  rw [GoPlasma.Contract.toData, require_bind_eq_ok, h.size]
  exact ⟨h.isData, congrArg Except.ok h.data⟩

/-! ## Lists -/

theorem items_of_lt {last n : ℕ} (h : ptr < last) :
    items mem last (n + 1) ptr = (items mem last n (ptr + itemLength mem ptr) >>= fun rest =>
      .ok (⟨ptr, itemLength mem ptr⟩ :: rest)) := by
  rw [items.eq_def]
  exact if_pos h

/-- The loop of `toList` finds the byte strings of a list. -/
theorem items_encodeAll {l : List Bytes} (hl : ∀ b ∈ l, b.length < 2 ^ 64) {n : ℕ}
    (hn : l.length ≤ n) (h : mem.Holds ptr (encodeAll (l.map .str))) :
    ∃ found, items mem (ptr + (encodeAll (l.map .str)).length) n ptr
        = .ok (found ++ List.replicate (n - l.length) nullItem) ∧
      List.Forall₂ (ReadsAs mem) found l := by
  induction l generalizing n ptr with
  | nil =>
    refine ⟨[], ?_, .nil⟩
    rw [items.eq_def]
    simp [encodeAll]
  | cons b l ih =>
    rw [List.map_cons, encodeAll, Memory.holds_append] at h
    obtain ⟨hitem, hread⟩ := readsAs_of_holds (hl b (by simp)) h.1
    have hpos : 0 < (encode (.str b)).length := List.length_pos_iff.mpr (Rlp.encode_ne_nil _)
    obtain ⟨n, rfl⟩ : ∃ n', n = n' + 1 := ⟨n - 1, by simp at hn; omega⟩
    obtain ⟨found, hfound, hall⟩ := ih (fun b hb => hl b (by simp [hb])) (n := n)
      (by simpa using hn) h.2
    refine ⟨⟨ptr, (encode (.str b)).length⟩ :: found, ?_, .cons hread hall⟩
    rw [List.map_cons, encodeAll, List.length_append, items_of_lt (by omega), hitem,
      ← Nat.add_assoc, hfound, List.length_cons, Nat.add_sub_add_right]
    rfl

/-- The fields of an encoded list of byte strings. -/
theorem toList_encode {l : List Bytes} (hl : ∀ b ∈ l, b.length < 2 ^ 64)
    (hlen : (encodeAll (l.map .str)).length < 2 ^ 64) {n : ℕ} (hn : l.length = n) {data : Bytes}
    (hdata : data = encode (.list (l.map .str))) (behind : Memory) :
    ∃ found, toList (memoryOf data behind) (toRLPItem data) n = .ok found ∧
      List.Forall₂ (ReadsAs (memoryOf data behind)) found l := by
  have hholds := holds_memoryOf data behind
  generalize memoryOf data behind = mem at hholds ⊢
  have hne : data.length ≠ 0 := by
    rw [hdata]
    exact fun h0 => Rlp.encode_ne_nil _ (List.length_eq_zero_iff.mp h0)
  have hitem : toRLPItem data = ⟨0, data.length⟩ := if_neg hne
  have hsplit : data = header 0xC0 (encodeAll (l.map .str)).length ++ encodeAll (l.map .str) := by
    rw [hdata, encode]
  rw [hitem]
  rw [hsplit, Memory.holds_append, Nat.zero_add] at hholds
  obtain ⟨hheader, hpayload⟩ := hholds
  have hsize : data.length = (header 0xC0 (encodeAll (l.map .str)).length).length
      + (encodeAll (l.map .str)).length := by rw [← List.length_append, ← hsplit]
  -- the first byte says that it is a list, and how long the header is
  have hfirst : 0xC0 ≤ (mem 0).toNat ∧ payloadOffset mem ⟨0, data.length⟩
      = (header 0xC0 (encodeAll (l.map .str)).length).length := by
    rw [length_header]
    by_cases hshort : (encodeAll (l.map .str)).length < 56
    · have h0 := holds_header_short (by norm_num) hshort hheader
      refine ⟨by omega, ?_⟩
      simp only [payloadOffset]
      rw [if_neg hne, if_neg (by omega), if_pos (by omega), if_pos hshort]
    · obtain ⟨h0, -⟩ := holds_header_long (by norm_num) hshort hlen hheader
      have hpos := Rlp.byteLength_pos (n := (encodeAll (l.map .str)).length) (by omega)
      have hle := Rlp.byteLength_le hlen
      refine ⟨by omega, ?_⟩
      simp only [payloadOffset]
      rw [if_neg hne, if_neg (by omega), if_neg (by omega), if_neg (by omega), if_neg hshort]
      omega
  obtain ⟨found, hfound, hall⟩ := items_encodeAll hl hn.le hpayload
  refine ⟨found, ?_, hall⟩
  rw [toList, require_bind_eq_ok]
  refine ⟨?_, ?_⟩
  · simp only [isList, decide_eq_true_eq]
    exact ⟨hne, hfirst.1⟩
  · rw [hn, Nat.sub_self, List.replicate_zero, List.append_nil] at hfound
    rw [hfirst.2, Nat.zero_add, Nat.zero_add, hsize]
    exact hfound

/-! ## Transactions -/

/-- The byte strings of the encoding of a transaction. -/
def strings (tx : Plasma.Transaction) : List Bytes :=
  [minBE tx.tokenID.toNat, minBE tx.denomination.toNat, minBE tx.depositIndex.toNat,
    minBE tx.prevBlock.toNat, tx.prevOwner.1, tx.recipient.1, minBE tx.allowance.toNat,
    minBE tx.spent.toNat, tx.sig.1]

theorem bytes_eq (tx : Plasma.Transaction) :
    tx.bytes = encode (.list ((strings tx).map .str)) := rfl

theorem length_minBE_le (x : UInt64) : (minBE x.toNat).length ≤ 8 := by
  rw [Rlp.length_minBE]
  exact Rlp.byteLength_le x.toNat_lt

theorem length_encodeAll_strings (tx : Plasma.Transaction) :
    (encodeAll ((strings tx).map .str)).length < 2 ^ 64 :=
  lt_trans tx.length_encodeAll_fields (by norm_num)

/-- What `parseTx` finds, with the balance that it computes. -/
def parsed (tx : Plasma.Transaction) (balance : UInt64) : PlasmaTx :=
  ⟨tx.tokenID, tx.denomination, tx.depositIndex, tx.prevBlock, tx.prevOwner, tx.recipient,
    tx.allowance, tx.spent, balance⟩

/-- The fields of a transaction, as items in the memory. -/
theorem txItems_bytes (tx : Plasma.Transaction) (behind : Memory) :
    ∃ rlpTx, txItems behind tx.bytes = .ok rlpTx ∧
      List.Forall₂ (ReadsAs (memoryOf tx.bytes behind)) rlpTx (strings tx) := by
  have hsig := tx.sig.2
  have hstrings : ∀ b ∈ strings tx, b.length < 2 ^ 63 := by
    have h8 : ∀ x : UInt64, (minBE x.toNat).length < 2 ^ 63 := fun x =>
      lt_of_le_of_lt (length_minBE_le x) (by norm_num)
    have h20 : ∀ a : Address, a.1.length < 2 ^ 63 := fun a => by
      rw [a.2]
      norm_num
    simp only [strings, List.forall_mem_cons]
    exact ⟨h8 _, h8 _, h8 _, h8 _, h20 _, h20 _, h8 _, h8 _, hsig, by simp⟩
  exact toList_encode (fun b hb => lt_trans (hstrings b hb) (by norm_num))
    (length_encodeAll_strings tx) rfl (bytes_eq tx) behind

theorem uint64Field_of_readsAs {behind : Memory} {txBytes : Bytes} {rlpTx : List RLPItem} {i : ℕ}
    {x : UInt64} (h : ReadsAs (memoryOf txBytes behind) (rlpTx.getD i nullItem) (minBE x.toNat)) :
    uint64Field behind txBytes rlpTx i = .ok x := by
  have hlen := length_minBE_le x
  rw [uint64Field, h.toUint (by omega), Rlp.ofBE_minBE]
  exact congrArg Except.ok (UInt64.ofNat_toNat)

theorem toUint_of_readsAs {item : RLPItem} {x : UInt64} (h : ReadsAs mem item (minBE x.toNat)) :
    toUint mem item = .ok x.toNat := by
  have hlen := length_minBE_le x
  rw [h.toUint (by omega), Rlp.ofBE_minBE]

/-- What is read of the items of a transaction. -/
structure ReadsTx (behind : Memory) (tx : Plasma.Transaction) (l : List RLPItem) : Prop where
  items : txItems behind tx.bytes = .ok l
  tokenID : uint64Field behind tx.bytes l 0 = .ok tx.tokenID
  denomination : uint64Field behind tx.bytes l 1 = .ok tx.denomination
  depositIndex : uint64Field behind tx.bytes l 2 = .ok tx.depositIndex
  prevBlock : uint64Field behind tx.bytes l 3 = .ok tx.prevBlock
  prevOwner : addressField behind tx.bytes l 4 = .ok tx.prevOwner
  recipient : addressField behind tx.bytes l 5 = .ok tx.recipient
  allowance : uint64Field behind tx.bytes l 6 = .ok tx.allowance
  spent : uint64Field behind tx.bytes l 7 = .ok tx.spent
  sig : toData (memoryOf tx.bytes behind) (l.getD 8 nullItem) = .ok tx.sig.1
  wholeTokenID : toUint (memoryOf tx.bytes behind) (l.getD 0 nullItem) = .ok tx.tokenID.toNat
  wholePrevBlock : toUint (memoryOf tx.bytes behind) (l.getD 3 nullItem) = .ok tx.prevBlock.toNat
  unsigned : unsignedTx behind tx.bytes l = encode (.list (tx.fields []))

theorem exists_readsTx (tx : Plasma.Transaction) (behind : Memory) :
    ∃ l, ReadsTx behind tx l := by
  obtain ⟨l, hitems, hall⟩ := txItems_bytes tx behind
  simp only [strings, List.forall₂_cons_right_iff, List.forall₂_nil_right_iff] at hall
  obtain ⟨i0, _, h0, ⟨i1, _, h1, ⟨i2, _, h2, ⟨i3, _, h3, ⟨i4, _, h4, ⟨i5, _, h5, ⟨i6, _, h6,
    ⟨i7, _, h7, ⟨i8, _, h8, rfl, rfl⟩, rfl⟩, rfl⟩, rfl⟩, rfl⟩, rfl⟩, rfl⟩, rfl⟩, rfl⟩ := hall
  refine ⟨_, hitems, uint64Field_of_readsAs h0, uint64Field_of_readsAs h1,
    uint64Field_of_readsAs h2, uint64Field_of_readsAs h3, h4.toAddress, h5.toAddress,
    uint64Field_of_readsAs h6, uint64Field_of_readsAs h7, h8.toData, toUint_of_readsAs h0,
    toUint_of_readsAs h3, ?_⟩
  -- the first eight fields as they were written, and an empty signature
  have hlist : ((List.range 8).map fun i => toBytes (memoryOf tx.bytes behind)
      ([i0, i1, i2, i3, i4, i5, i6, i7, i8].getD i nullItem)).flatten ++ [0x80]
        = encodeAll (tx.fields []) := by
    change [toBytes _ i0, toBytes _ i1, toBytes _ i2, toBytes _ i3, toBytes _ i4, toBytes _ i5,
      toBytes _ i6, toBytes _ i7].flatten ++ [0x80] = _
    rw [h0.bytes, h1.bytes, h2.bytes, h3.bytes, h4.bytes, h5.bytes, h6.bytes, h7.bytes]
    have hempty : encode (.str []) = [0x80] := rfl
    simp only [Plasma.Transaction.fields, encodeAll, Rlp.uint, hempty, List.flatten_cons,
      List.flatten_nil, List.append_assoc, List.append_nil]
  rw [unsignedTx, encode]
  simp only [hlist]

/-- `parseTx` finds the fields of the transaction, and fails only where the balance does. -/
theorem parseTx_bytes (tx : Plasma.Transaction) (behind : Memory) :
    parseTx behind tx.bytes = (uint64Sub tx.denomination tx.allowance >>= fun rest =>
      uint64Sub rest tx.spent >>= fun balance => .ok (parsed tx balance)) := by
  obtain ⟨l, h⟩ := exists_readsTx tx behind
  simp only [parseTx, h.items, h.tokenID, h.denomination, h.depositIndex, h.prevBlock, h.prevOwner,
    h.recipient, h.allowance, h.spent, ok_bind, parsed]

/-- `verifyTx` checks the token of a deposit, and of other transactions the amounts and the
signature of the encoding without signature. -/
theorem verifyTx_bytes (tx : Plasma.Transaction) (behind : Memory) (E : Evm) :
    verifyTx behind tx.bytes E =
      if tx.prevBlock = 0 then
        .ok (decide (tokenHash E tx.recipient tx.depositIndex tx.denomination = tx.tokenID))
      else uint64Add tx.allowance tx.spent >>= fun used =>
        if tx.denomination < used then .ok false
        else .ok (decide (recover E (E.keccak (encode (.list (tx.fields [])))) tx.sig.1
          = tx.prevOwner)) := by
  obtain ⟨l, h⟩ := exists_readsTx tx behind
  have hzero : tx.prevBlock.toNat = 0 ↔ tx.prevBlock = 0 := by
    rw [← UInt64.toNat_inj]
    rfl
  simp only [verifyTx, h.items, h.wholePrevBlock, h.wholeTokenID, h.denomination, h.depositIndex,
    h.recipient, h.allowance, h.spent, h.prevOwner, h.sig, h.unsigned, ok_bind, hzero,
    UInt64.toNat_inj]

/-- The fields that `parseTx` finds in the encoding of a transaction. -/
theorem eq_parsed_of_parseTx {tx : Plasma.Transaction} {behind : Memory} {p : PlasmaTx}
    (h : parseTx behind tx.bytes = .ok p) : ∃ balance, p = parsed tx balance := by
  rw [parseTx_bytes] at h
  obtain ⟨rest, -, h⟩ := bind_eq_ok.mp h
  obtain ⟨balance, -, h⟩ := bind_eq_ok.mp h
  exact ⟨balance, (Except.ok.inj h).symm⟩

/-- An empty byte array is no transaction. -/
theorem parseTx_nil (behind : Memory) : parseTx behind [] = .error .revert := rfl

end GoPlasma.Contract
