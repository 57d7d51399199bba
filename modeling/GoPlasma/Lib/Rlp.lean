import GoPlasma.Lib.Bytes

/-!
# Recursive length prefix encoding

Items are byte strings and lists of items. A header gives the kind and the length of what follows,
and for long payloads the length of the length; a single byte below `0x80` is its own encoding.

`decode` is the strict decoder: lengths and single bytes must have their shortest form.
`decode_encode`: it gives every item back. `encode_of_decodeBytes`: it takes nothing but encodings.
So the encoding determines the item (`encode_inj`). Lengths are below `2 ^ 64`, which is what the
header has room for.
-/

namespace Rlp

/-- What can be encoded. -/
inductive Item where
  | str (b : Bytes)
  | list (l : List Item)

/-! ## Numbers -/

/-- The number of bytes of `n`. -/
def byteLength (n : ℕ) : ℕ := if n = 0 then 0 else n.log2 / 8 + 1

/-- The bytes of `n`, most significant first, without leading zeros. -/
def minBE (n : ℕ) : Bytes := Bytes.toBE (byteLength n) n

@[simp] theorem length_minBE (n : ℕ) : (minBE n).length = byteLength n := Bytes.length_toBE _ _

theorem lt_pow_byteLength (n : ℕ) : n < 256 ^ byteLength n := by
  unfold byteLength
  split
  · omega
  · calc n < 2 ^ (n.log2 + 1) := Nat.lt_log2_self
      _ ≤ 2 ^ (8 * (n.log2 / 8 + 1)) := Nat.pow_le_pow_right (by norm_num) (by omega)
      _ = 256 ^ (n.log2 / 8 + 1) := by
        rw [pow_mul]
        norm_num

theorem ofBE_minBE (n : ℕ) : Bytes.ofBE (minBE n) = n :=
  Bytes.ofBE_toBE_of_lt (lt_pow_byteLength n)

theorem minBE_inj {m n : ℕ} (h : minBE m = minBE n) : m = n := by
  rw [← ofBE_minBE m, h, ofBE_minBE]

theorem byteLength_le_of_lt {n k : ℕ} (h : n < 256 ^ k) : byteLength n ≤ k := by
  unfold byteLength
  split
  · omega
  · rename_i hn
    have hlog : n.log2 < 8 * k := by
      rw [Nat.log2_lt hn, pow_mul]
      exact h
    omega

theorem byteLength_le {n : ℕ} (h : n < 2 ^ 64) : byteLength n ≤ 8 :=
  byteLength_le_of_lt (h.trans_eq (by norm_num))

theorem byteLength_pos {n : ℕ} (h : 0 < n) : 0 < byteLength n := by
  rw [byteLength, if_neg (by omega)]
  omega

/-- A number as an item. -/
def uint (n : ℕ) : Item := .str (minBE n)

/-! ## Encoding -/

/-- The header of a payload of `n` bytes. -/
def header (base n : ℕ) : Bytes :=
  if n < 56 then [UInt8.ofNat (base + n)]
  else UInt8.ofNat (base + 55 + byteLength n) :: minBE n

/-- A single byte that encodes itself. -/
def isOwnCode (b : Bytes) : Bool :=
  match b with
  | [x] => decide (x < 0x80)
  | _ => false

mutual
/-- The encoding of an item. -/
def encode : Item → Bytes
  | .str b => if isOwnCode b then b else header 0x80 b.length ++ b
  | .list l => header 0xC0 (encodeAll l).length ++ encodeAll l

/-- The encodings of several items, one after the other. -/
def encodeAll : List Item → Bytes
  | [] => []
  | x :: l => encode x ++ encodeAll l
end

theorem header_eq_cons (base n : ℕ) : ∃ c t, header base n = c :: t := by
  unfold header
  split
  · exact ⟨_, [], rfl⟩
  · exact ⟨_, _, rfl⟩

/-- The two shapes of the encoding of a byte string. -/
theorem encode_str_cases (b : Bytes) :
    (∃ c : UInt8, c < 0x80 ∧ b = [c] ∧ encode (.str b) = [c])
      ∨ encode (.str b) = header 0x80 b.length ++ b := by
  rw [encode]
  split
  · rename_i hown
    unfold isOwnCode at hown
    split at hown
    · rename_i c
      exact Or.inl ⟨c, of_decide_eq_true hown, rfl, rfl⟩
    · cases hown
  · exact Or.inr rfl

theorem encode_ne_nil : ∀ x : Item, encode x ≠ []
  | .str b => by
    obtain ⟨c, -, -, he⟩ | he := encode_str_cases b
    · simp [he]
    · obtain ⟨c, t, ht⟩ := header_eq_cons 0x80 b.length
      simp [he, ht]
  | .list l => by
    obtain ⟨c, t, ht⟩ := header_eq_cons 0xC0 (encodeAll l).length
    simp [encode, ht]

/-! ## Lengths -/

theorem length_header_le (base : ℕ) {n : ℕ} (hn : n < 2 ^ 64) : (header base n).length ≤ 9 := by
  have := byteLength_le hn
  unfold header
  split
  · simp
  · rw [List.length_cons, length_minBE]
    omega

theorem length_encode_str_le {b : Bytes} (hb : b.length < 2 ^ 64) :
    (encode (.str b)).length ≤ b.length + 9 := by
  have := length_header_le 0x80 hb
  rw [encode]
  split
  · omega
  · rw [List.length_append]
    omega

theorem length_le_encode_str (b : Bytes) : b.length ≤ (encode (.str b)).length := by
  rw [encode]
  split
  · exact le_rfl
  · rw [List.length_append]
    omega

/-- An item is longer than each of its parts. -/
theorem length_encode_lt_of_mem {x : Item} {l : List Item} (h : x ∈ l) :
    (encode x).length < (encode (.list l)).length := by
  have hall : (encode x).length ≤ (encodeAll l).length := by
    induction l with
    | nil => cases h
    | cons y l ih =>
      rw [encodeAll, List.length_append]
      rcases List.mem_cons.mp h with rfl | h
      · omega
      · have := ih h
        omega
  obtain ⟨c, t, ht⟩ := header_eq_cons 0xC0 (encodeAll l).length
  rw [encode, List.length_append, ht, List.length_cons]
  omega

theorem length_encode_fixed_le {b : Bytes} {n : ℕ} (hb : b.length = n) (hn : n < 2 ^ 64) :
    (encode (.str b)).length ≤ n + 9 := by
  subst hb
  exact length_encode_str_le hn

theorem length_encode_uint_le (x : UInt64) : (encode (uint x.toNat)).length ≤ 17 := by
  have hl := byteLength_le x.toNat_lt
  have := length_encode_str_le (b := minBE x.toNat) (by rw [length_minBE]; omega)
  rw [length_minBE] at this
  unfold uint
  omega

theorem length_encodeAll (l : List Item) :
    (encodeAll l).length = (l.map fun x => (encode x).length).sum := by
  induction l with
  | nil => rfl
  | cons x l ih => rw [encodeAll, List.length_append, ih, List.map_cons, List.sum_cons]

theorem length_encode_list {l l' : List Item} (h : (encodeAll l).length = (encodeAll l').length) :
    (encode (.list l)).length = (encode (.list l')).length := by
  rw [encode, encode, List.length_append, List.length_append, h]

theorem length_encode_list_le {l : List Item}
    (h : (l.map fun x => (encode x).length).sum < 2 ^ 64) :
    (encode (.list l)).length ≤ (l.map fun x => (encode x).length).sum + 9 := by
  rw [← length_encodeAll] at h ⊢
  have hheader := length_header_le 0xC0 h
  rw [encode, List.length_append]
  omega

/-- A list of at most `k` items of at most `n` bytes each. -/
theorem length_encode_list_le_mul {l : List Item} {n k : ℕ} (hn : ∀ x ∈ l, (encode x).length ≤ n)
    (hk : l.length ≤ k) (hlt : k * n < 2 ^ 64) : (encode (.list l)).length ≤ k * n + 9 := by
  have hsum : (l.map fun x => (encode x).length).sum ≤ k * n := by
    have hle := List.sum_le_card_nsmul (l.map fun x => (encode x).length) n (by simpa using hn)
    rw [List.length_map, smul_eq_mul] at hle
    exact hle.trans (Nat.mul_le_mul_right n hk)
  exact (length_encode_list_le (by omega)).trans (by omega)

/-- The length does not depend on the order of the items. -/
theorem length_encode_list_perm {l l' : List Item} (h : l.Perm l') :
    (encode (.list l)).length = (encode (.list l')).length := by
  apply length_encode_list
  rw [length_encodeAll, length_encodeAll, (h.map _).sum_eq]

theorem uint_inj {m n : ℕ} (h : uint m = uint n) : m = n := minBE_inj (Item.str.inj h)

/-! ## Decoding -/

/-- What a header announces: a byte that encodes itself, or a string or list of so many bytes. -/
inductive Kind where
  | byte (c : UInt8)
  | str (n : ℕ)
  | list (n : ℕ)

/-- The length in a long header: `n` bytes without leading zeros, for a number that a short header
has no room for. -/
def readLength (n : ℕ) (b : Bytes) : Option (ℕ × Bytes) :=
  if b.length < n ∨ (b.take n).head? = some 0 ∨ Bytes.ofBE (b.take n) < 56 then none
  else some (Bytes.ofBE (b.take n), b.drop n)

/-- The kind of the first item, and what comes behind its header. -/
def readKind : Bytes → Option (Kind × Bytes)
  | [] => none
  | c :: r =>
    if c < 0x80 then some (.byte c, r)
    else if c < 0xB8 then some (.str (c.toNat - 0x80), r)
    else if c < 0xC0 then (readLength (c.toNat - 0xB7) r).map fun x => (.str x.1, x.2)
    else if c < 0xF8 then some (.list (c.toNat - 0xC0), r)
    else (readLength (c.toNat - 0xF7) r).map fun x => (.list x.1, x.2)

mutual
/-- The first item of a string, and what comes behind it. -/
def decodeItem : ℕ → Bytes → Option (Item × Bytes)
  | 0, _ => none
  | fuel + 1, b =>
    match readKind b with
    | none => none
    | some (.byte c, r) => some (.str [c], r)
    | some (.str n, r) =>
      if r.length < n ∨ isOwnCode (r.take n) then none else some (.str (r.take n), r.drop n)
    | some (.list n, r) =>
      if r.length < n then none
      else (decodeAll fuel (r.take n)).map fun l => (.list l, r.drop n)

/-- The items that a string is made of. -/
def decodeAll : ℕ → Bytes → Option (List Item)
  | 0, _ => none
  | _ + 1, [] => some []
  | fuel + 1, c :: b =>
    match decodeItem fuel (c :: b) with
    | none => none
    | some (x, r) => (decodeAll fuel r).map fun l => x :: l
end

/-- The first item of a string. An item takes two rounds for each of its bytes at most. -/
def decode (b : Bytes) : Option Item := (decodeItem (2 * b.length) b).map Prod.fst

theorem pow_byteLength_le {n : ℕ} (h : 0 < n) : 256 ^ (byteLength n - 1) ≤ n := by
  rw [byteLength, if_neg (by omega), Nat.add_sub_cancel]
  calc 256 ^ (n.log2 / 8) = 2 ^ (8 * (n.log2 / 8)) := by
        rw [pow_mul]
        norm_num
    _ ≤ 2 ^ n.log2 := Nat.pow_le_pow_right (by norm_num) (by omega)
    _ ≤ n := Nat.log2_self_le (by omega)

/-- The bytes of a number do not start with a zero. -/
theorem head_minBE (n : ℕ) : (minBE n).head? ≠ some 0 := by
  intro h
  rcases hb : minBE n with _ | ⟨c, t⟩
  · rw [hb] at h
    cases h
  · rw [hb, List.head?_cons, Option.some.injEq] at h
    have hlen : t.length + 1 = byteLength n := by rw [← length_minBE, hb, List.length_cons]
    have hpos : 0 < n := by
      by_contra h0
      rw [byteLength, if_pos (by omega)] at hlen
      omega
    have hle := pow_byteLength_le hpos
    -- without its first byte the number is the same, and too small
    have hlt := Bytes.ofBE_lt t
    have hval : n = Bytes.ofBE t := by
      rw [← ofBE_minBE n, hb, h, ← List.singleton_append, Bytes.ofBE_append]
      simp [Bytes.ofBE]
    rw [show byteLength n - 1 = t.length by omega] at hle
    omega

theorem readLength_minBE {n : ℕ} (hn : 56 ≤ n) (r : Bytes) :
    readLength (byteLength n) (minBE n ++ r) = some (n, r) := by
  have htake : (minBE n ++ r).take (byteLength n) = minBE n := by
    rw [← length_minBE, List.take_left]
  have hdrop : (minBE n ++ r).drop (byteLength n) = r := by
    rw [← length_minBE, List.drop_left]
  have hlen : ¬ (minBE n ++ r).length < byteLength n := by
    rw [List.length_append, length_minBE]
    omega
  rw [readLength, htake, hdrop, ofBE_minBE, if_neg]
  rintro (h | h | h)
  · exact hlen h
  · exact head_minBE n h
  · omega

private theorem toNat_ofNat {n : ℕ} (h : n < 256) : (UInt8.ofNat n).toNat = n := by
  rw [UInt8.toNat_ofNat']
  omega

/-- `readKind` by the number of the first byte. -/
theorem readKind_ofNat {m : ℕ} (hm : m < 256) (r : Bytes) :
    readKind (UInt8.ofNat m :: r) =
      if m < 0x80 then some (.byte (UInt8.ofNat m), r)
      else if m < 0xB8 then some (.str (m - 0x80), r)
      else if m < 0xC0 then (readLength (m - 0xB7) r).map fun x => (.str x.1, x.2)
      else if m < 0xF8 then some (.list (m - 0xC0), r)
      else (readLength (m - 0xF7) r).map fun x => (.list x.1, x.2) := by
  simp only [readKind, UInt8.lt_iff_toNat_lt, toNat_ofNat hm]
  rfl

/-- The header of a string is read back. -/
theorem readKind_string {n : ℕ} (hn : n < 2 ^ 64) (r : Bytes) :
    readKind (header 0x80 n ++ r) = some (.str n, r) := by
  have hlen := byteLength_le hn
  unfold header
  by_cases hs : n < 56
  · rw [if_pos hs, List.singleton_append, readKind_ofNat (by omega), if_neg (by omega),
      if_pos (by omega), Nat.add_sub_cancel_left]
  · have hpos := byteLength_pos (n := n) (by omega)
    rw [if_neg hs, List.cons_append, readKind_ofNat (by omega), if_neg (by omega),
      if_neg (by omega), if_pos (by omega),
      show 0x80 + 55 + byteLength n - 0xB7 = byteLength n by omega,
      readLength_minBE (by omega) r, Option.map_some]

/-- The header of a list is read back. -/
theorem readKind_list {n : ℕ} (hn : n < 2 ^ 64) (r : Bytes) :
    readKind (header 0xC0 n ++ r) = some (.list n, r) := by
  have hlen := byteLength_le hn
  unfold header
  by_cases hs : n < 56
  · rw [if_pos hs, List.singleton_append, readKind_ofNat (by omega), if_neg (by omega),
      if_neg (by omega), if_neg (by omega), if_pos (by omega), Nat.add_sub_cancel_left]
  · have hpos := byteLength_pos (n := n) (by omega)
    rw [if_neg hs, List.cons_append, readKind_ofNat (by omega), if_neg (by omega),
      if_neg (by omega), if_neg (by omega), if_neg (by omega),
      show 0xC0 + 55 + byteLength n - 0xF7 = byteLength n by omega,
      readLength_minBE (by omega) r, Option.map_some]

theorem length_encode_pos (x : Item) : 0 < (encode x).length :=
  List.length_pos_iff.mpr (encode_ne_nil x)

theorem length_header_pos (base n : ℕ) : 0 < (header base n).length := by
  obtain ⟨c, t, ht⟩ := header_eq_cons base n
  rw [ht, List.length_cons]
  omega

mutual
/-- Decoding an encoded item gives the item, and what comes behind it. -/
theorem decodeItem_encode : ∀ (x : Item) {fuel : ℕ} {r : Bytes}, (encode x).length < 2 ^ 64 →
    2 * (encode x).length ≤ fuel → decodeItem fuel (encode x ++ r) = some (x, r)
  | x, 0, r, _, hf => by
    have := length_encode_pos x
    omega
  | .str b, fuel + 1, r, hx, hf => by
    rw [encode] at hx ⊢
    by_cases hown : isOwnCode b = true
    · rw [if_pos hown] at hx ⊢
      unfold isOwnCode at hown
      split at hown
      · rename_i c
        rw [List.singleton_append, decodeItem, readKind, if_pos (of_decide_eq_true hown)]
      · cases hown
    · rw [if_neg hown, List.length_append] at hx
      rw [if_neg hown, List.append_assoc, decodeItem, readKind_string (by omega)]
      simp only [List.take_left, List.drop_left]
      rw [if_neg]
      rintro (h | h)
      · rw [List.length_append] at h
        omega
      · exact hown h
  | .list l, fuel + 1, r, hx, hf => by
    rw [encode, List.length_append] at hx hf
    have hpos := length_header_pos 0xC0 (encodeAll l).length
    rw [encode, List.append_assoc, decodeItem, readKind_list (by omega)]
    simp only [List.take_left, List.drop_left]
    rw [if_neg (by rw [List.length_append]; omega), decodeAll_encodeAll l (by omega) (by omega),
      Option.map_some]

theorem decodeAll_encodeAll : ∀ (l : List Item) {fuel : ℕ}, (encodeAll l).length < 2 ^ 64 →
    2 * (encodeAll l).length < fuel → decodeAll fuel (encodeAll l) = some l
  | l, 0, _, hf => by omega
  | [], fuel + 1, _, _ => by rw [encodeAll, decodeAll]
  | x :: l, fuel + 1, hl, hf => by
    rw [encodeAll, List.length_append] at hl hf
    have hpos := length_encode_pos x
    rcases hb : encode x with _ | ⟨c, t⟩
    · exact (encode_ne_nil x hb).elim
    · have hitem : decodeItem fuel (encode x ++ encodeAll l) = some (x, encodeAll l) :=
        decodeItem_encode x (by omega) (by omega)
      rw [hb, List.cons_append] at hitem
      rw [encodeAll, hb, List.cons_append, decodeAll, hitem]
      simp only
      rw [decodeAll_encodeAll l (by omega) (by omega), Option.map_some]
end

/-- Decoding gives back what was encoded. -/
theorem decode_encode {x : Item} (hx : (encode x).length < 2 ^ 64) :
    decode (encode x) = some x := by
  have h := decodeItem_encode x (r := []) hx le_rfl
  rw [List.append_nil] at h
  rw [decode, h, Option.map_some]

/-! ## What decodes is an encoding -/

theorem byteLength_eq {n k : ℕ} (hlow : 256 ^ k ≤ n) (hhigh : n < 256 ^ (k + 1)) :
    byteLength n = k + 1 := by
  have hpos : 0 < 256 ^ k := by positivity
  have hn : n ≠ 0 := by omega
  have h256 : ∀ j : ℕ, (256 : ℕ) ^ j = 2 ^ (8 * j) := fun j => by
    rw [pow_mul]
    norm_num
  rw [h256] at hlow hhigh
  have hle := (Nat.le_log2 hn).mpr hlow
  have hlt := (Nat.log2_lt hn).mpr hhigh
  rw [byteLength, if_neg hn]
  omega

/-- Bytes without a leading zero are those of their number. -/
theorem minBE_ofBE {b : Bytes} (h : b.head? ≠ some 0) : minBE (Bytes.ofBE b) = b := by
  have hlen : byteLength (Bytes.ofBE b) = b.length := by
    rcases b with _ | ⟨c, t⟩
    · rfl
    · have hc : c.toNat ≠ 0 := by
        intro hc
        exact h (by rw [List.head?_cons, ← UInt8.toNat_inj.mp (hc.trans UInt8.toNat_zero.symm)])
      refine byteLength_eq ?_ (Bytes.ofBE_lt (c :: t))
      have hval : Bytes.ofBE (c :: t) = c.toNat * 256 ^ t.length + Bytes.ofBE t := by
        rw [← List.singleton_append, Bytes.ofBE_append]
        simp [Bytes.ofBE]
      rw [hval]
      exact le_trans (Nat.le_mul_of_pos_left _ (by omega)) (Nat.le_add_right _ _)
  rw [minBE, hlen, Bytes.toBE_ofBE]

theorem readLength_eq_some {n m : ℕ} {b r : Bytes} (h : readLength n b = some (m, r)) :
    b = minBE m ++ r ∧ byteLength m = n ∧ 56 ≤ m := by
  unfold readLength at h
  split_ifs at h with hbad
  obtain ⟨hlen, hhead, hlow⟩ : n ≤ b.length ∧ (b.take n).head? ≠ some 0 ∧
      56 ≤ Bytes.ofBE (b.take n) := by
    simp only [not_or, not_lt] at hbad
    exact hbad
  obtain ⟨rfl, rfl⟩ := Prod.mk.inj (Option.some.inj h)
  have hmin := minBE_ofBE hhead
  refine ⟨by rw [hmin, List.take_append_drop], ?_, hlow⟩
  rw [← length_minBE, hmin, List.length_take, Nat.min_eq_left hlen]

/-- What a header says is what was written. -/
def Kind.Starts : Kind → Bytes → Bytes → Prop
  | .byte c, b, r => c < 0x80 ∧ b = c :: r
  | .str n, b, r => b = header 0x80 n ++ r
  | .list n, b, r => b = header 0xC0 n ++ r

theorem header_of_short {base n : ℕ} {c : UInt8} (hn : n < 56) (hc : c.toNat = base + n) :
    header base n = [c] := by
  rw [header, if_pos hn, ← hc, UInt8.ofNat_toNat]

theorem header_of_long {base n : ℕ} {c : UInt8} (hn : 56 ≤ n)
    (hc : c.toNat = base + 55 + byteLength n) : header base n = c :: minBE n := by
  rw [header, if_neg (by omega), ← hc, UInt8.ofNat_toNat]

theorem readKind_eq_some {b r : Bytes} {k : Kind} (h : readKind b = some (k, r)) :
    k.Starts b r := by
  rcases b with _ | ⟨c, t⟩
  · cases h
  · have hlt := c.toNat_lt
    simp only [readKind, UInt8.lt_iff_toNat_lt] at h
    change (if c.toNat < 128 then _ else if c.toNat < 184 then _ else if c.toNat < 192 then _
      else if c.toNat < 248 then _ else _) = _ at h
    -- by the range of the first byte
    split_ifs at h with h₁ h₂ h₃ h₄
    · obtain ⟨rfl, rfl⟩ := Prod.mk.inj (Option.some.inj h)
      exact ⟨h₁, rfl⟩
    · obtain ⟨rfl, rfl⟩ := Prod.mk.inj (Option.some.inj h)
      change c :: t = header 0x80 (c.toNat - 0x80) ++ t
      rw [header_of_short (c := c) (by omega) (by omega), List.singleton_append]
    · obtain ⟨⟨m, r'⟩, hm, heq⟩ := Option.map_eq_some_iff.mp h
      obtain ⟨rfl, rfl⟩ := Prod.mk.inj heq
      obtain ⟨rfl, hlen, hlow⟩ := readLength_eq_some hm
      change c :: (minBE m ++ r') = header 0x80 m ++ r'
      rw [header_of_long (c := c) hlow (by omega), List.cons_append]
    · obtain ⟨rfl, rfl⟩ := Prod.mk.inj (Option.some.inj h)
      change c :: t = header 0xC0 (c.toNat - 0xC0) ++ t
      rw [header_of_short (c := c) (by omega) (by omega), List.singleton_append]
    · obtain ⟨⟨m, r'⟩, hm, heq⟩ := Option.map_eq_some_iff.mp h
      obtain ⟨rfl, rfl⟩ := Prod.mk.inj heq
      obtain ⟨rfl, hlen, hlow⟩ := readLength_eq_some hm
      change c :: (minBE m ++ r') = header 0xC0 m ++ r'
      rw [header_of_long (c := c) hlow (by omega), List.cons_append]

mutual
/-- The decoder takes nothing but encodings. -/
theorem encode_of_decodeItem : ∀ {fuel : ℕ} {b r : Bytes} {x : Item},
    decodeItem fuel b = some (x, r) → b = encode x ++ r
  | 0, b, r, x, h => by
    rw [decodeItem] at h
    cases h
  | fuel + 1, b, r, x, h => by
    rw [decodeItem] at h
    rcases hk : readKind b with _ | ⟨c | n | n, t⟩
    · rw [hk] at h
      cases h
    · obtain ⟨hc, rfl⟩ := readKind_eq_some hk
      rw [hk] at h
      obtain ⟨rfl, rfl⟩ := Prod.mk.inj (Option.some.inj h)
      rw [encode, if_pos (show isOwnCode [c] = true from decide_eq_true hc)]
      rfl
    · obtain rfl : b = header 0x80 n ++ t := readKind_eq_some hk
      simp only [hk] at h
      split_ifs at h with hbad
      -- a string of one low byte with a header is refused, so this one has its header
      obtain ⟨hlen, hown⟩ := not_or.mp hbad
      obtain ⟨rfl, rfl⟩ := Prod.mk.inj (Option.some.inj h)
      rw [encode, if_neg hown, List.length_take, Nat.min_eq_left (not_lt.mp hlen),
        List.append_assoc, List.take_append_drop]
    · obtain rfl : b = header 0xC0 n ++ t := readKind_eq_some hk
      simp only [hk] at h
      split_ifs at h with hlen
      obtain ⟨l, hl, heq⟩ := Option.map_eq_some_iff.mp h
      obtain ⟨rfl, rfl⟩ := Prod.mk.inj heq
      have hall := encodeAll_of_decodeAll hl
      rw [encode, ← hall, List.length_take, Nat.min_eq_left (not_lt.mp hlen), List.append_assoc,
        List.take_append_drop]

theorem encodeAll_of_decodeAll : ∀ {fuel : ℕ} {b : Bytes} {l : List Item},
    decodeAll fuel b = some l → b = encodeAll l
  | 0, b, l, h => by
    rw [decodeAll] at h
    cases h
  | fuel + 1, [], l, h => by
    rw [decodeAll] at h
    rw [← Option.some.inj h, encodeAll]
  | fuel + 1, c :: b, l, h => by
    rw [decodeAll] at h
    rcases hx : decodeItem fuel (c :: b) with _ | ⟨x, r⟩
    · rw [hx] at h
      cases h
    · simp only [hx] at h
      obtain ⟨l', hl', rfl⟩ := Option.map_eq_some_iff.mp h
      rw [encode_of_decodeItem hx, encodeAll_of_decodeAll hl', encodeAll]
end

/-- The item that a string is the encoding of: nothing may come behind it. -/
def decodeBytes (b : Bytes) : Option Item :=
  match decodeItem (2 * b.length) b with
  | some (x, []) => some x
  | _ => none

theorem decodeBytes_encode {x : Item} (hx : (encode x).length < 2 ^ 64) :
    decodeBytes (encode x) = some x := by
  have h := decodeItem_encode x (r := []) hx le_rfl
  rw [List.append_nil] at h
  rw [decodeBytes, h]

/-- The encoding determines the item. -/
theorem encode_inj {x y : Item} (hx : (encode x).length < 2 ^ 64) (h : encode x = encode y) :
    x = y := by
  have hdx := decodeBytes_encode hx
  rw [h] at hx hdx
  exact Option.some.inj (hdx.symm.trans (decodeBytes_encode hx))

theorem encode_of_decodeBytes {b : Bytes} {x : Item} (h : decodeBytes b = some x) :
    b = encode x := by
  unfold decodeBytes at h
  split at h
  · rename_i y hy
    rw [encode_of_decodeItem hy, List.append_nil, Option.some.inj h]
  · cases h

end Rlp
