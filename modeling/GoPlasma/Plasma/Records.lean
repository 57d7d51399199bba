import GoPlasma.Plasma.Transaction

/-!
# Stored records

The encodings under which the state database stores tokens, accounts, chains and anchors
(`plasmachain/token.go`, `account.go`, `anchorobject.go`, `deep/anchortransaction.go`), and what
`rlp.Decode` makes of a string for these types. `rlp.Decode` reads one value and does not look at
what comes behind it.

Every record decodes to itself, with three exceptions: the encoder refuses negative totals, a nil
block hash is encoded as an empty string, which is no hash, and lengths end at `2 ^ 64`.
-/

namespace GoPlasma.Plasma

/-! ## Fields -/

/-- Decode into a `uint64`. -/
def decodeUint64 : Rlp.Item → Option UInt64
  | .str b =>
    if 8 < b.length ∨ b.head? = some 0 then none else some (UInt64.ofNat (Bytes.ofBE b))
  | .list _ => none

/-- Decode into a `*big.Int`. -/
def decodeBigInt : Rlp.Item → Option ℤ
  | .str b => if b.head? = some 0 then none else some (Bytes.ofBE b)
  | .list _ => none

/-- Decode into an array of `n` bytes. -/
def decodeByteArray (n : ℕ) : Rlp.Item → Option {b : Bytes // b.length = n}
  | .str b => if h : b.length = n then some ⟨b, h⟩ else none
  | .list _ => none

/-- Decode into a byte slice. -/
def decodeByteSlice : Rlp.Item → Option Slice
  | .str b => if h : b.length < 2 ^ 63 then some ⟨b, h⟩ else none
  | .list _ => none

/-- Decode into a slice, `dec` decodes an element. -/
def decodeListSlice {α : Type} (dec : Rlp.Item → Option α) : Rlp.Item → Option (List α)
  | .list l => l.mapM dec
  | .str _ => none

theorem decodeUint64_uint (x : UInt64) : decodeUint64 (Rlp.uint x.toNat) = some x := by
  have hlen := Rlp.byteLength_le x.toNat_lt
  rw [Rlp.uint, decodeUint64, if_neg, Rlp.ofBE_minBE, UInt64.ofNat_toNat]
  rintro (h | h)
  · rw [Rlp.length_minBE] at h
    omega
  · exact Rlp.head_minBE _ h

theorem decodeBigInt_uint (n : ℕ) : decodeBigInt (Rlp.uint n) = some (n : ℤ) := by
  rw [Rlp.uint, decodeBigInt, if_neg (Rlp.head_minBE n), Rlp.ofBE_minBE]

theorem decodeByteArray_str {n : ℕ} (b : {b : Bytes // b.length = n}) :
    decodeByteArray n (.str b.1) = some b := by
  rw [decodeByteArray, dif_pos b.2]

theorem decodeByteSlice_str (b : Slice) : decodeByteSlice (.str b.1) = some b := by
  rw [decodeByteSlice, dif_pos b.2]

theorem decodeListSlice_map {α : Type} {enc : α → Rlp.Item} {dec : Rlp.Item → Option α}
    {l : List α} (h : ∀ a ∈ l, dec (enc a) = some a) :
    decodeListSlice dec (.list (l.map enc)) = some l := by
  rw [decodeListSlice]
  induction l with
  | nil => rfl
  | cons a l ih =>
    rw [List.map_cons, List.mapM_cons, h a List.mem_cons_self,
      ih fun b hb => h b (List.mem_cons_of_mem _ hb)]
    rfl

/-- A slice with an element that does not decode. -/
theorem decodeListSlice_map_none {α : Type} {enc : α → Rlp.Item} {dec : Rlp.Item → Option α}
    {l : List α} {a : α} (ha : a ∈ l) (h : dec (enc a) = none) :
    decodeListSlice dec (.list (l.map enc)) = none := by
  rw [decodeListSlice]
  induction l with
  | nil => cases ha
  | cons b l ih =>
    rw [List.map_cons, List.mapM_cons]
    rcases List.mem_cons.mp ha with rfl | ha
    · rw [h]
      rfl
    · rw [ih ha]
      rcases dec (enc b) with _ | b'
      · rfl
      · rfl

/-! The fields decode from nothing but their encodings. -/

theorem uint_of_decodeUint64 {x : Rlp.Item} {v : UInt64} (h : decodeUint64 x = some v) :
    x = Rlp.uint v.toNat := by
  rcases x with b | l
  · rw [decodeUint64] at h
    split_ifs at h with hbad
    obtain ⟨hlen, hhead⟩ := not_or.mp hbad
    obtain rfl := Option.some.inj h
    have hlt : Bytes.ofBE b < 2 ^ 64 :=
      calc Bytes.ofBE b < 256 ^ b.length := Bytes.ofBE_lt b
        _ ≤ 256 ^ 8 := Nat.pow_le_pow_right (by norm_num) (by omega)
        _ = 2 ^ 64 := by norm_num
    rw [Rlp.uint, UInt64.toNat_ofNat', Nat.mod_eq_of_lt hlt, Rlp.minBE_ofBE hhead]
  · cases h

theorem str_of_decodeByteArray {n : ℕ} {x : Rlp.Item} {v : {b : Bytes // b.length = n}}
    (h : decodeByteArray n x = some v) : x = .str v.1 := by
  rcases x with b | l
  · rw [decodeByteArray] at h
    split_ifs at h
    rw [← Option.some.inj h]
  · cases h

theorem str_of_decodeByteSlice {x : Rlp.Item} {v : Slice} (h : decodeByteSlice x = some v) :
    x = .str v.1 := by
  rcases x with b | l
  · rw [decodeByteSlice] at h
    split_ifs at h
    rw [← Option.some.inj h]
  · cases h

theorem list_of_decodeListSlice {α : Type} {enc : α → Rlp.Item} {dec : Rlp.Item → Option α}
    (hdec : ∀ x a, dec x = some a → x = enc a) {x : Rlp.Item} {l : List α}
    (h : decodeListSlice dec x = some l) : x = .list (l.map enc) := by
  rcases x with b | items
  · cases h
  rw [decodeListSlice] at h
  induction items generalizing l with
  | nil =>
    obtain rfl := Option.some.inj h
    rfl
  | cons y items ih =>
    rw [List.mapM_cons] at h
    rcases hy : dec y with _ | a
    · rw [hy] at h
      cases h
    rcases hitems : items.mapM dec with _ | l₁
    · rw [hy, hitems] at h
      cases h
    rw [hy, hitems] at h
    obtain rfl := Option.some.inj h
    rw [List.map_cons, hdec y a hy, Rlp.Item.list.inj (ih hitems)]

/-- Lists of addresses. -/
theorem decodeListSlice_addresses (l : List Address) :
    decodeListSlice (decodeByteArray 20) (.list (l.map fun a => .str a.1)) = some l :=
  decodeListSlice_map fun a _ => decodeByteArray_str a

/-! ## Tokens -/

/-- What is encoded of a token. -/
def Token.item (t : Token) : Rlp.Item :=
  .list [Rlp.uint t.denomination.toNat, Rlp.uint (UInt64.ofNat t.prevBlock).toNat,
    .str t.owner.1, Rlp.uint t.balance.toNat, Rlp.uint t.allowance.toNat, Rlp.uint t.spent.toNat]

/-- `EncodeToBytes` of a token. -/
def Token.encode (t : Token) : Bytes := Rlp.encode t.item

/-- `DecodeRLP` of a token. -/
def Token.ofItem : Rlp.Item → Option Token
  | .list [denomination, prevBlock, owner, balance, allowance, spent] => do
      let denomination ← decodeUint64 denomination
      let prevBlock ← decodeUint64 prevBlock
      let owner ← decodeByteArray 20 owner
      let balance ← decodeUint64 balance
      let allowance ← decodeUint64 allowance
      let spent ← decodeUint64 spent
      some ⟨denomination, prevBlock.toNat, owner, balance, allowance, spent⟩
  | _ => none

/-- `rlp.Decode` into a token. -/
def Token.decode (b : Bytes) : Option Token := Rlp.decode b >>= Token.ofItem

theorem Token.ofItem_item {t : Token} (h : t.prevBlock < 2 ^ 64) :
    Token.ofItem t.item = some t := by
  have hprev : (UInt64.ofNat t.prevBlock).toNat = t.prevBlock := by
    rw [UInt64.toNat_ofNat']
    exact Nat.mod_eq_of_lt h
  simp only [Token.item, Token.ofItem, decodeUint64_uint, decodeByteArray_str, Option.bind_eq_bind,
    Option.bind_some]
  rw [hprev]

theorem Token.length_encode_lt (t : Token) : t.encode.length < 2 ^ 64 := by
  have hall : (Rlp.encodeAll [Rlp.uint t.denomination.toNat,
      Rlp.uint (UInt64.ofNat t.prevBlock).toNat, .str t.owner.1, Rlp.uint t.balance.toNat,
      Rlp.uint t.allowance.toNat, Rlp.uint t.spent.toNat]).length ≤ 200 := by
    simp only [Rlp.encodeAll, List.length_append, List.length_nil]
    have h₁ := Rlp.length_encode_uint_le t.denomination
    have h₂ := Rlp.length_encode_uint_le (UInt64.ofNat t.prevBlock)
    have h₃ := Rlp.length_encode_fixed_le t.owner.2 (by norm_num)
    have h₄ := Rlp.length_encode_uint_le t.balance
    have h₅ := Rlp.length_encode_uint_le t.allowance
    have h₆ := Rlp.length_encode_uint_le t.spent
    omega
  have hhead := Rlp.length_header_le 0xC0 (lt_of_le_of_lt hall (by norm_num))
  rw [Token.encode, Token.item, Rlp.encode, List.length_append]
  omega

/-- A token record is read back, if its block number is a `uint64`. -/
theorem Token.decode_encode {t : Token} (h : t.prevBlock < 2 ^ 64) :
    Token.decode t.encode = some t := by
  rw [Token.decode, Token.encode, Rlp.decode_encode t.length_encode_lt]
  exact Token.ofItem_item h

/-! ## Accounts -/

/-- What is encoded of an account. -/
def Account.item (a : Account) : Rlp.Item :=
  .list [.list (a.tokens.map fun tokenID => Rlp.uint tokenID.toNat),
    Rlp.uint a.denomination.toNat, Rlp.uint a.balance.toNat]

/-- `EncodeToBytes` of an account. -/
def Account.encode (a : Account) : Except String Bytes :=
  if a.denomination < 0 ∨ a.balance < 0 then .error "rlp: cannot encode negative *big.Int"
  else .ok (Rlp.encode a.item)

/-- `DecodeRLP` of an account. -/
def Account.ofItem : Rlp.Item → Option Account
  | .list [tokens, denomination, balance] => do
      let tokens ← decodeListSlice decodeUint64 tokens
      let denomination ← decodeBigInt denomination
      let balance ← decodeBigInt balance
      some ⟨tokens, denomination, balance⟩
  | _ => none

/-- `rlp.Decode` into an account. -/
def Account.decode (b : Bytes) : Option Account := Rlp.decode b >>= Account.ofItem

/-- An account with non-negative totals is read back. -/
theorem Account.decode_encode {a : Account} {b : Bytes} (h : a.encode = .ok b)
    (hb : b.length < 2 ^ 64) : Account.decode b = some a := by
  unfold Account.encode at h
  split_ifs at h with hneg
  obtain ⟨hden, hbal⟩ := not_or.mp hneg
  obtain rfl := Except.ok.inj h
  have hd : ((a.denomination.toNat : ℕ) : ℤ) = a.denomination :=
    Int.toNat_of_nonneg (not_lt.mp hden)
  have hl : ((a.balance.toNat : ℕ) : ℤ) = a.balance := Int.toNat_of_nonneg (not_lt.mp hbal)
  rw [Account.decode, Rlp.decode_encode hb]
  simp only [Account.item, Account.ofItem, Option.bind_eq_bind, Option.bind_some,
    decodeListSlice_map (fun tokenID _ => decodeUint64_uint tokenID), decodeBigInt_uint, hd, hl]

/-! ## Anchors and chains -/

/-- What is encoded of an anchor transaction. -/
def AnchorTransaction.item (tx : AnchorTransaction) : Rlp.Item := .list (tx.fields tx.sig.1)

/-- Decode into an `Ownership`. -/
def Ownership.ofItem : Rlp.Item → Option Ownership
  | .list [addedOwners, removedOwners] => do
      let addedOwners ← decodeListSlice (decodeByteArray 20) addedOwners
      let removedOwners ← decodeListSlice (decodeByteArray 20) removedOwners
      some ⟨addedOwners, removedOwners⟩
  | _ => none

/-- Decode into an anchor transaction: the block hash must be there. -/
def AnchorTransaction.ofItem : Rlp.Item → Option AnchorTransaction
  | .list [blockChainID, blockNumber, blockHash, extra, sig] => do
      let blockChainID ← decodeUint64 blockChainID
      let blockNumber ← decodeUint64 blockNumber
      let blockHash ← decodeByteArray 32 blockHash
      let extra ← Ownership.ofItem extra
      let sig ← decodeByteSlice sig
      some ⟨blockChainID, blockNumber, some blockHash, extra, sig⟩
  | _ => none

theorem AnchorTransaction.ofItem_item (tx : AnchorTransaction) :
    AnchorTransaction.ofItem tx.item = if tx.blockHash.isSome then some tx else none := by
  obtain ⟨blockChainID, blockNumber, blockHash, ⟨addedOwners, removedOwners⟩, sig⟩ := tx
  rcases blockHash with _ | h
  · have hempty : decodeByteArray 32 (.str []) = none := rfl
    simp only [AnchorTransaction.item, AnchorTransaction.fields, AnchorTransaction.ofItem,
      decodeUint64_uint, hempty, Option.bind_eq_bind, Option.bind_some, Option.bind_none,
      Option.isSome_none, Bool.false_eq_true, if_false]
  · simp only [AnchorTransaction.item, AnchorTransaction.fields, AnchorTransaction.ofItem,
      Ownership.ofItem, decodeUint64_uint, decodeByteArray_str, decodeByteSlice_str,
      decodeListSlice_addresses, Option.bind_eq_bind, Option.bind_some, Option.isSome_some, if_true]

/-- What is encoded of an anchor block. -/
def AnchorBlock.item (a : AnchorBlock) : Rlp.Item :=
  .list [.list (a.anchors.map AnchorTransaction.item), .list (a.owners.map fun o => .str o.1),
    Rlp.uint a.startBlock.toNat, Rlp.uint a.endBlock.toNat]

/-- `Bytes`, and `EncodeToBytes` of a chain. -/
def AnchorBlock.bytes (a : AnchorBlock) : Bytes := Rlp.encode a.item

/-- `DecodeRLP` of an anchor block. -/
def AnchorBlock.ofItem : Rlp.Item → Option AnchorBlock
  | .list [anchors, owners, startBlock, endBlock] => do
      let anchors ← decodeListSlice AnchorTransaction.ofItem anchors
      let owners ← decodeListSlice (decodeByteArray 20) owners
      let startBlock ← decodeUint64 startBlock
      let endBlock ← decodeUint64 endBlock
      some ⟨anchors, owners, startBlock, endBlock⟩
  | _ => none

/-- `rlp.Decode` into an anchor block. -/
def AnchorBlock.decode (b : Bytes) : Option AnchorBlock := Rlp.decode b >>= AnchorBlock.ofItem

/-- An anchor block is read back exactly if all its anchors have a block hash. -/
theorem AnchorBlock.decode_bytes {a : AnchorBlock} (ha : a.bytes.length < 2 ^ 64) :
    AnchorBlock.decode a.bytes = some a ↔ ∀ tx ∈ a.anchors, tx.blockHash.isSome := by
  rw [AnchorBlock.decode, AnchorBlock.bytes, Rlp.decode_encode ha]
  obtain ⟨anchors, owners, startBlock, endBlock⟩ := a
  constructor
  · intro h tx htx
    by_contra hnone
    have hbad : decodeListSlice AnchorTransaction.ofItem
        (.list (anchors.map AnchorTransaction.item)) = none :=
      decodeListSlice_map_none htx (by rw [AnchorTransaction.ofItem_item, if_neg hnone])
    simp [AnchorBlock.item, AnchorBlock.ofItem, hbad] at h
  · intro h
    have hgood : decodeListSlice AnchorTransaction.ofItem
        (.list (anchors.map AnchorTransaction.item)) = some anchors :=
      decodeListSlice_map fun tx htx => by rw [AnchorTransaction.ofItem_item, if_pos (h tx htx)]
    simp only [AnchorBlock.item, AnchorBlock.ofItem, hgood, decodeUint64_uint,
      decodeListSlice_addresses, Option.bind_eq_bind, Option.bind_some]

end GoPlasma.Plasma
