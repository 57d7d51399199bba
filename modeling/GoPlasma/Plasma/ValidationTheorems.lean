import GoPlasma.Plasma.HistoryTheorems
import GoPlasma.Lib.Orders

/-!
# Validating a signed anchor

`ValidateExtraData` rewrites the owners of an anchor through a Go map, whose order is not
determined, and the signature is over these owners. `signed_unaltered_iff`: `ValidateAnchor` leaves
an anchor that `SignTx` has signed as it is, whatever the order, exactly if neither list has two
owners.
-/

namespace GoPlasma.Plasma

variable {C : Crypto} {tx tx₀ : AnchorTransaction} {a r : List Address}

/-! ## Orders -/

/-- What `removeDuplicates` can return for a list. -/
def Dedups (owners l : List Address) : Prop := l.Nodup ∧ l.toFinset = owners.toFinset

instance (owners l : List Address) : Decidable (Dedups owners l) :=
  inferInstanceAs (Decidable (_ ∧ _))

/-- A list without duplicates can stay as it is. -/
theorem dedups_self (h : a.Nodup) : Dedups a a := ⟨h, rfl⟩

/-- A list without duplicates can be reversed. -/
theorem dedups_reverse (h : a.Nodup) : Dedups a a.reverse := Orders.reverse ⟨h, rfl⟩

/-- It can be kept by nothing else, if it has one entry at most. -/
theorem Dedups.eq_of_length_le (h : Dedups a r) (hlen : a.length ≤ 1) : r = a := by
  have hnodup : a.Nodup := by
    rcases a with _ | ⟨x, _ | ⟨y, l⟩⟩
    · exact List.nodup_nil
    · exact List.nodup_singleton x
    · simp at hlen
  exact Orders.eq_of_card_le h ⟨hnodup, rfl⟩ (a.toFinset_card_le.trans hlen)

/-- A list of two different entries or more is not its own reverse. -/
theorem length_le_of_reverse (h : a.Nodup) (hrev : a.reverse = a) : a.length ≤ 1 := by
  rw [← List.toFinset_card_of_nodup h]
  exact Orders.card_le_of_reverse ⟨h, rfl⟩ hrev

/-! ## Encodings -/

/-- The encoding determines the owners. -/
theorem AnchorTransaction.extra_eq_of_bytes {tx' : AnchorTransaction} (h : tx'.bytes = tx.bytes)
    (hlen : tx.bytes.length < 2 ^ 64) : tx'.extra = tx.extra := by
  rw [← h] at hlen
  have hitem := Rlp.encode_inj hlen h
  simp only [AnchorTransaction.fields, Rlp.Item.list.injEq, List.cons.injEq] at hitem
  obtain ⟨-, -, -, ⟨hadded, hremoved, -⟩, -⟩ := hitem
  have hinj : Function.Injective fun addr : Address => Rlp.Item.str addr.1 :=
    fun x y hxy => Subtype.ext (Rlp.Item.str.inj hxy)
  have hadded' := List.map_injective_iff.mpr hinj hadded
  have hremoved' := List.map_injective_iff.mpr hinj hremoved
  calc tx'.extra = ⟨tx'.extra.addedOwners, tx'.extra.removedOwners⟩ := rfl
    _ = tx.extra := by rw [hadded', hremoved']

/-! ## Signing and validating -/

/-- `sign` makes signatures from which `Ecrecover` finds the public key. -/
def KeyOf (C : Crypto) (sign : Bytes → Except String Bytes) (pub : Bytes) : Prop :=
  ∀ (hash : Hash) sig, sign hash.1 = .ok sig → C.ecrecover hash.1 (Bytes.fit 65 sig) =
    .ok (4 :: pub)

theorem recoverSigner_of_ecrecover {hash sig pub : Bytes}
    (h : C.ecrecover (signHash C hash) sig = .ok (4 :: pub)) :
    recoverSigner C hash sig = .ok (addressOfPub C pub) := by
  unfold recoverSigner
  rw [h]
  rfl

theorem validateExtraData_eq_ok {tx' : AnchorTransaction} :
    tx.validateExtraData a r = .ok tx' ↔
      (∀ addr ∈ a, addr ∉ r) ∧ tx' = { tx with extra := ⟨a, r⟩ } := by
  unfold AnchorTransaction.validateExtraData
  split_ifs with h
  · simp only [List.any_eq_true, decide_eq_true_eq] at h
    obtain ⟨addr, ha, hr⟩ := h
    simp only [false_iff, not_and]
    exact fun hall => absurd hr (hall addr ha)
  · simp only [List.any_eq_true, decide_eq_true_eq, not_exists, not_and] at h
    rw [Except.ok.injEq, eq_comm]
    exact ⟨fun heq => ⟨h, heq⟩, fun heq => heq.2⟩

/-- What `SignTx` returns: the owners in the order that was signed, without duplicates and without
contradiction, and a signature of the key. -/
structure Signed (C : Crypto) (pub : Bytes) (tx : AnchorTransaction) : Prop where
  added : tx.extra.addedOwners.Nodup
  removed : tx.extra.removedOwners.Nodup
  disjoint : ∀ addr ∈ tx.extra.addedOwners, addr ∉ tx.extra.removedOwners
  signer : tx.getSigner C = .ok (addressOfPub C pub)

theorem signed_of_signTx {sign : Bytes → Except String Bytes} {pub : Bytes}
    (hkey : KeyOf C sign pub)
    (ha : Dedups tx₀.extra.addedOwners a) (hr : Dedups tx₀.extra.removedOwners r)
    (h : tx₀.signTx C sign a r = .ok tx) : Signed C pub tx := by
  unfold AnchorTransaction.signTx at h
  rcases hv : tx₀.validateExtraData a r with e | tx₁
  · rw [hv] at h
    cases h
  · rw [hv] at h
    obtain ⟨hd, rfl⟩ := validateExtraData_eq_ok.mp hv
    change (sign (signHash C (AnchorTransaction.shortHash C _).1) >>= _) = _ at h
    rcases hsig : sign (signHash C (AnchorTransaction.shortHash C
      { tx₀ with extra := ⟨a, r⟩ }).1) with e | sig
    · rw [hsig] at h
      cases h
    · rw [hsig] at h
      cases h
      exact ⟨ha.1, hr.1, hd, recoverSigner_of_ecrecover (hkey _ _ hsig)⟩

/-- `ValidateAnchor` accepts the anchor and leaves its hashes and its signer as they are, whatever
the order in which the Go map returns the owners. -/
def Unaltered (C : Crypto) (tx : AnchorTransaction) (signer : Address) : Prop :=
  ∀ a r, Dedups tx.extra.addedOwners a → Dedups tx.extra.removedOwners r →
    ∃ tx', tx.validateAnchor C a r = .ok tx' ∧ tx'.hash C = tx.hash C ∧
      tx'.shortHash C = tx.shortHash C ∧ tx'.getSigner C = .ok signer

/-- Neither list of owners leaves a choice of the order. -/
def Unordered (tx : AnchorTransaction) : Prop :=
  tx.extra.addedOwners.length ≤ 1 ∧ tx.extra.removedOwners.length ≤ 1

/-- No two orders of the owners have the same hash by a collision. -/
def OrdersApart (C : Crypto) (tx : AnchorTransaction) : Prop :=
  ∀ a r, Dedups tx.extra.addedOwners a → Dedups tx.extra.removedOwners r →
    C.keccak { tx with extra := ⟨a, r⟩ }.bytes = C.keccak tx.bytes →
      { tx with extra := ⟨a, r⟩ }.bytes = tx.bytes

section
variable {pub : Bytes}

theorem validateAnchor_self (h : Signed C pub tx) (hid : tx.blockChainID ≠ 0) :
    tx.validateAnchor C tx.extra.addedOwners tx.extra.removedOwners = .ok tx := by
  have hv : tx.validateExtraData tx.extra.addedOwners tx.extra.removedOwners = .ok tx :=
    validateExtraData_eq_ok.mpr ⟨h.disjoint, rfl⟩
  unfold AnchorTransaction.validateAnchor
  rw [hv]
  change (tx.getSigner C >>= fun _ => _) = _
  rw [h.signer]
  exact if_neg hid

/-- What `ValidateAnchor` returns has the owners in the new order. -/
theorem validateAnchor_eq_ok {tx' : AnchorTransaction} (h : tx.validateAnchor C a r = .ok tx') :
    tx' = { tx with extra := ⟨a, r⟩ } := by
  unfold AnchorTransaction.validateAnchor at h
  rcases hv : tx.validateExtraData a r with e | tx₁
  · rw [hv] at h
    cases h
  · rw [hv] at h
    obtain ⟨-, rfl⟩ := validateExtraData_eq_ok.mp hv
    change (AnchorTransaction.getSigner C _ >>= fun _ => _) = _ at h
    rcases hs : AnchorTransaction.getSigner C { tx with extra := ⟨a, r⟩ } with e | signer
    · rw [hs] at h
      cases h
    · rw [hs] at h
      change (if _ then _ else _) = _ at h
      split_ifs at h
      exact (Except.ok.inj h).symm

theorem Signed.unaltered (h : Signed C pub tx) (hid : tx.blockChainID ≠ 0) (hu : Unordered tx) :
    Unaltered C tx (addressOfPub C pub) := by
  intro a r ha hr
  rw [ha.eq_of_length_le hu.1, hr.eq_of_length_le hu.2]
  exact ⟨tx, validateAnchor_self h hid, rfl, rfl, h.signer⟩

/-- An order that is left as it is, by its hash. -/
theorem Unaltered.eq {signer : Address} (h : Unaltered C tx signer)
    (hlen : tx.bytes.length < 2 ^ 64)
    (hinj : OrdersApart C tx) (ha : Dedups tx.extra.addedOwners a)
    (hr : Dedups tx.extra.removedOwners r) : (⟨a, r⟩ : Ownership) = tx.extra := by
  obtain ⟨tx', hok, hhash, -, -⟩ := h a r ha hr
  obtain rfl := validateAnchor_eq_ok hok
  exact AnchorTransaction.extra_eq_of_bytes (hinj a r ha hr hhash) hlen

theorem Signed.unordered (h : Signed C pub tx) (hlen : tx.bytes.length < 2 ^ 64)
    (hinj : OrdersApart C tx) {signer : Address} (hu : Unaltered C tx signer) : Unordered tx := by
  constructor
  · have heq := hu.eq hlen hinj (dedups_reverse h.added) (dedups_self h.removed)
    exact length_le_of_reverse h.added (congrArg Ownership.addedOwners heq)
  · have heq := hu.eq hlen hinj (dedups_self h.added) (dedups_reverse h.removed)
    exact length_le_of_reverse h.removed (congrArg Ownership.removedOwners heq)

end

/-- An anchor that `SignTx` has signed has the address of the key as its signer. With one owner at
most in each list, `ValidateAnchor` leaves it unaltered; and where the orders of the owners have
different hashes, only then. -/
theorem signed_unaltered_iff {sign : Bytes → Except String Bytes} {pub : Bytes}
    (hkey : KeyOf C sign pub) (ha : Dedups tx₀.extra.addedOwners a)
    (hr : Dedups tx₀.extra.removedOwners r) (h : tx₀.signTx C sign a r = .ok tx)
    (hid : tx.blockChainID ≠ 0) :
    tx.getSigner C = .ok (addressOfPub C pub) ∧
    (Unordered tx → Unaltered C tx (addressOfPub C pub)) ∧
    (tx.bytes.length < 2 ^ 64 → OrdersApart C tx →
      (Unaltered C tx (addressOfPub C pub) ↔ Unordered tx)) := by
  have hs := signed_of_signTx hkey ha hr h
  refine ⟨hs.signer, hs.unaltered hid, fun hlen hinj => ?_⟩
  exact ⟨hs.unordered hlen hinj, hs.unaltered hid⟩

/-! ### One owner and two owners -/

/-- A hash that takes the input modulo a number, and a signature scheme in which the signature is
the hash. -/
def residueCrypto : Crypto where
  keccak b := ⟨Bytes.toBE 32 (Bytes.ofBE b % (2 ^ 255 - 19)), Bytes.length_toBE 32 _⟩
  ecrecover hash sig := if sig.take 32 = hash then .ok [4] else .error "recovery failed"
  operatorAddr := oneAddress
  operatorSign := .ok

theorem keyOf_residueCrypto : KeyOf residueCrypto .ok [] := by
  rintro hash sig ⟨⟩
  have htake : (Bytes.fit 65 hash.1).take 32 = hash.1 := by
    have hle : hash.1.length ≤ 65 := by rw [hash.2]; norm_num
    rw [Bytes.fit, List.take_of_length_le hle]
    exact List.take_left' hash.2
  simp only [residueCrypto, htake, if_true]

/-- An anchor of chain 1 that adds owners. -/
def addsOwners (owners : List Address) : AnchorTransaction := ⟨1, 0, none, ⟨owners, []⟩, emptySlice⟩

/-- An anchor that adds one owner is left as it is. -/
theorem signed_unaltered_iff_oneOwner : ∃ tx,
    (addsOwners [oneAddress]).signTx residueCrypto .ok [oneAddress] [] = .ok tx ∧
    Unaltered residueCrypto tx (addressOfPub residueCrypto []) := by
  obtain ⟨tx, htx, hid, hu⟩ : ∃ tx,
      (addsOwners [oneAddress]).signTx residueCrypto .ok [oneAddress] [] = .ok tx ∧
      tx.blockChainID ≠ 0 ∧ Unordered tx := ⟨_, rfl, by decide, by decide, by decide⟩
  have h := signed_unaltered_iff keyOf_residueCrypto (by decide) (by decide) htx hid
  exact ⟨tx, htx, h.2.1 hu⟩

/-- An anchor that adds two owners is signed. When the map returns them in the other order, its
hashes are others and the signature does not fit. -/
theorem signed_altered : ∃ tx,
    (addsOwners [oneAddress, zeroAddress]).signTx residueCrypto .ok [oneAddress, zeroAddress] [] =
      .ok tx ∧ tx.blockChainID ≠ 0 ∧
    Dedups tx.extra.addedOwners [zeroAddress, oneAddress] ∧ Dedups tx.extra.removedOwners [] ∧
    tx.validateAnchor residueCrypto [oneAddress, zeroAddress] [] = .ok tx ∧
    tx.validateAnchor residueCrypto [zeroAddress, oneAddress] [] = .error "recovery failed" ∧
    AnchorTransaction.hash residueCrypto { tx with extra := ⟨[zeroAddress, oneAddress], []⟩ } ≠
      tx.hash residueCrypto ∧
    AnchorTransaction.shortHash residueCrypto { tx with extra := ⟨[zeroAddress, oneAddress], []⟩ } ≠
      tx.shortHash residueCrypto :=
  ⟨_, rfl, by decide, by decide, by decide, by decide +kernel, by decide +kernel, by decide +kernel,
    by decide +kernel⟩

end GoPlasma.Plasma
