import GoPlasma.Contract.SparseMerkle
import GoPlasma.Smt.SoundnessTheorems

/-!
# The two proof checkers agree

`getRoot` of the contract shifts a `uint64` and reads hashes at byte offsets; `Check` of the tree
indexes the bytes of the key and a list of hashes. Both are the climb from the leaf with the
siblings of the proof.
-/

namespace GoPlasma.Contract

open Smt (hashPair)

variable {E : Evm}

/-! ## The default hashes -/

theorem foldl_setDefaultHash (hashes : ℕ → Hash) (n i : ℕ) (hi : i ≤ n) :
    ((List.range n).foldl (setDefaultHash E) hashes i).1
      = BinTree.empty (hashPair E.keccak) (hashes 0).1 i := by
  induction n generalizing i with
  | zero =>
    obtain rfl : i = 0 := by omega
    rfl
  | succ n ih =>
    rw [List.range_succ, List.foldl_append, List.foldl_cons, List.foldl_nil, setDefaultHash,
      Function.update_apply]
    by_cases h : i = n + 1
    · rw [if_pos h, h, BinTree.empty, ← ih n le_rfl]
      rfl
    · rw [if_neg h]
      exact ih i (by omega)

/-- The constructor fills the table with the default hashes, where its constant is the hash of the
empty string. -/
theorem newSparseMerkle_defaultHashes (hempty : E.keccak [] = emptyHash) :
    ∃ s, newSparseMerkle E = .ok s ∧
      ∀ i ≤ 64, (s.defaultHashes i).1 = Smt.defaultHashes E.keccak i := by
  have hcheck : Function.update (fun _ : ℕ => zeroHash) 0 emptyHash 0 ≠ zeroHash ∧
      Function.update (fun _ : ℕ => zeroHash) 0 emptyHash 64 = zeroHash := by decide
  refine ⟨⟨(List.range' 0 64).foldl (setDefaultHash E)
    (Function.update (fun _ => zeroHash) 0 emptyHash)⟩, ?_, ?_⟩
  · exact require_bind_eq_ok.mpr ⟨hcheck, rfl⟩
  · intro i hi
    rw [← List.range_eq_range', foldl_setDefaultHash _ 64 i hi, Smt.defaultHashes_eq_empty, hempty]
    rfl

/-! ## The loop of `getRoot` -/

/-- The hashes in a proof. -/
def hashesOf (proof : Bytes) : List Bytes :=
  (List.range ((proof.length - 8) / 32)).map fun j => Bytes.slice proof (8 + 32 * j) 32

theorem length_of_mem_hashesOf {proof b : Bytes} (h : b ∈ hashesOf proof) : b.length = 32 := by
  obtain ⟨j, hj, rfl⟩ := List.mem_map.mp h
  apply Bytes.length_slice
  have := List.mem_range.mp hj
  omega

theorem hashesOf_getElem? {proof : Bytes} {j : ℕ} (h : 8 + 32 * (j + 1) ≤ proof.length) :
    (hashesOf proof)[j]? = some (bytes32 (proof.drop (8 + 32 * j))).1 := by
  have hj : j < (proof.length - 8) / 32 := by omega
  have hfit : Bytes.slice proof (8 + 32 * j) 32 = Bytes.fit 32 (proof.drop (8 + 32 * j)) := by
    rw [Bytes.slice, Bytes.fit, List.length_drop,
      show 32 - (proof.length - (8 + 32 * j)) = 0 by omega]
    exact (List.append_nil _).symm
  rw [hashesOf, List.getElem?_map, List.getElem?_range hj]
  exact congrArg some hfit

/-- The bits of a proof. -/
def bitsOf (proof : Bytes) : UInt64 := UInt64.ofNat (Bytes.ofBE (proof.take 8))

/-- The sibling that `getRoot` uses at height `i`. -/
def siblingOf (s : SparseMerkle) (proof : Bytes) (i : ℕ) : Bytes :=
  BinTree.proofSibling (bitsOf proof).toNat (hashesOf proof) (fun i => (s.defaultHashes i).1) i

theorem length_siblingOf (s : SparseMerkle) (proof : Bytes) (i : ℕ) :
    (siblingOf s proof i).length = 32 := by
  rw [siblingOf, BinTree.proofSibling]
  split_ifs
  · rcases hb : (hashesOf proof)[BinTree.setBelow (bitsOf proof).toNat i]? with _ | b
    · exact (s.defaultHashes i).2
    · exact length_of_mem_hashesOf (List.mem_of_getElem? hb)
  · exact (s.defaultHashes i).2

variable (E) in
/-- The variables of the loop after `i` rounds. -/
structure AtHeight (s : SparseMerkle) (leaf : Hash) (index : UInt64) (proof : Bytes) (i : ℕ)
    (c : Climb) : Prop where
  computedHash : c.computedHash.1
    = BinTree.climb (hashPair E.keccak) (siblingOf s proof) index.toNat leaf.1 i
  p : c.p = 8 + 32 * BinTree.setBelow (bitsOf proof).toNat i
  proofBits : c.proofBits.toNat = (bitsOf proof).toNat / 2 ^ i
  index : c.index.toNat = index.toNat / 2 ^ i

theorem mod_two_eq_zero_iff {x n : UInt64} {i : ℕ} (h : x.toNat = n.toNat / 2 ^ i) :
    x % 2 = 0 ↔ n.toNat.testBit i = false := by
  rw [← UInt64.toNat_inj, UInt64.toNat_mod, h, BinTree.testBit_eq_mod]
  have : n.toNat / 2 ^ i % 2 < 2 := Nat.mod_lt _ (by norm_num)
  simp

theorem toNat_div_two {x n : UInt64} {i : ℕ} (h : x.toNat = n.toNat / 2 ^ i) :
    (x / 2).toNat = n.toNat / 2 ^ (i + 1) := by
  rw [UInt64.toNat_div, h, pow_succ, Nat.div_div_eq_div_mul]
  rfl

/-- The sibling of a round is the one of the proof; there is none exactly where the proof has too
few hashes. -/
theorem AtHeight.element {s : SparseMerkle} {leaf : Hash} {index : UInt64} {proof : Bytes} {i : ℕ}
    {c : Climb} (h : AtHeight E s leaf index proof i c) (hlen : c.p ≤ proof.length) :
    if 8 + 32 * BinTree.setBelow (bitsOf proof).toNat (i + 1) ≤ proof.length then
      ∃ e : Hash, proofElement s proof c i
          = .ok (e, 8 + 32 * BinTree.setBelow (bitsOf proof).toNat (i + 1))
        ∧ siblingOf s proof i = e.1
    else proofElement s proof c i = .error .revert := by
  rw [proofElement, BinTree.setBelow, siblingOf, BinTree.proofSibling]
  -- a set bit takes the next 32 bytes of the proof, and a clear one the default hash
  by_cases hbit : (bitsOf proof).toNat.testBit i
  · have hmod : ¬ c.proofBits % 2 = 0 := by
      rw [mod_two_eq_zero_iff h.proofBits, hbit]
      simp
    have hp : 8 + 32 * (BinTree.setBelow (bitsOf proof).toNat i + true.toNat) = c.p + 32 := by
      rw [h.p, Bool.toNat_true]
      ring
    rw [if_neg hmod, if_pos hbit, hbit, hp]
    by_cases hfit : c.p + 32 ≤ proof.length
    · rw [if_pos hfit]
      refine ⟨_, require_bind_eq_ok.mpr ⟨hfit, rfl⟩, ?_⟩
      rw [hashesOf_getElem? (by rw [h.p] at hfit; omega), h.p]
      rfl
    · rw [if_neg hfit]
      exact require_bind_of_not hfit
  · have hbit' : (bitsOf proof).toNat.testBit i = false := by simpa using hbit
    have hp : 8 + 32 * (BinTree.setBelow (bitsOf proof).toNat i + false.toNat) = c.p := by
      rw [h.p, Bool.toNat_false, Nat.add_zero]
    rw [if_pos ((mod_two_eq_zero_iff h.proofBits).mpr hbit'), if_neg hbit, hbit', hp, if_pos hlen]
    exact ⟨_, rfl, rfl⟩

/-- One round of the loop. -/
theorem AtHeight.round {s : SparseMerkle} {leaf : Hash} {index : UInt64} {proof : Bytes} {i : ℕ}
    {c : Climb} (h : AtHeight E s leaf index proof i c) (hlen : c.p ≤ proof.length) :
    if 8 + 32 * BinTree.setBelow (bitsOf proof).toNat (i + 1) ≤ proof.length then
      ∃ c', getRootRound E s proof c i = .ok c' ∧ AtHeight E s leaf index proof (i + 1) c'
    else getRootRound E s proof c i = .error .revert := by
  have helement := h.element hlen
  split_ifs with hfit
  · rw [if_pos hfit] at helement
    obtain ⟨e, he, hsib⟩ := helement
    refine ⟨_, by rw [getRootRound, he]; rfl, ⟨?_, rfl, toNat_div_two h.proofBits,
      toNat_div_two h.index⟩⟩
    rw [BinTree.climb, ← h.computedHash, hsib]
    by_cases hb : index.toNat.testBit i
    · rw [if_neg (by rw [mod_two_eq_zero_iff h.index, hb]; simp), if_pos hb]
      rfl
    · rw [if_pos ((mod_two_eq_zero_iff h.index).mpr (by simpa using hb)), if_neg hb]
      rfl
  · rw [if_neg hfit] at helement
    rw [getRootRound, helement]
    rfl

theorem setBelow_le_succ (bits i : ℕ) : BinTree.setBelow bits i ≤ BinTree.setBelow bits (i + 1) :=
  Nat.le_add_right _ _

/-- The first `i` rounds of the loop. -/
theorem foldlM_getRootRound (s : SparseMerkle) (leaf : Hash) (index : UInt64) {proof : Bytes}
    (hlen : 8 ≤ proof.length) (i : ℕ) :
    if 8 + 32 * BinTree.setBelow (bitsOf proof).toNat i ≤ proof.length then
      ∃ c, (List.range i).foldlM (getRootRound E s proof) ⟨leaf, 8, bitsOf proof, index⟩ = .ok c
        ∧ AtHeight E s leaf index proof i c
    else (List.range i).foldlM (getRootRound E s proof) ⟨leaf, 8, bitsOf proof, index⟩
      = .error .revert := by
  induction i with
  | zero =>
    rw [if_pos (by simpa [BinTree.setBelow] using hlen)]
    exact ⟨_, rfl, rfl, rfl, by simp, by simp⟩
  | succ i ih =>
    by_cases hi : 8 + 32 * BinTree.setBelow (bitsOf proof).toNat i ≤ proof.length
    · rw [if_pos hi] at ih
      obtain ⟨c, hc, hat⟩ := ih
      have hsucc : (List.range (i + 1)).foldlM (getRootRound E s proof)
          ⟨leaf, 8, bitsOf proof, index⟩ = getRootRound E s proof c i := by
        rw [List.range_succ, List.foldlM_append, hc]
        change (getRootRound E s proof c i >>= pure) = _
        exact bind_pure _
      rw [hsucc]
      exact hat.round (by rw [hat.p]; exact hi)
    · -- the loop has failed before
      rw [if_neg hi] at ih
      have := setBelow_le_succ (bitsOf proof).toNat i
      rw [if_neg (by omega), List.range_succ, List.foldlM_append, ih]
      rfl

/-- The first check of `getRoot`. -/
theorem proofLength_iff (n : ℕ) :
    ((n + (2 ^ 256 - 8)) % 2 ^ 256 % 32 = 0 ∧ n ≤ 2056) ↔ (n % 32 = 8 ∧ n ≤ 2056) := by
  constructor
  · rintro ⟨h, hn⟩
    exact ⟨by omega, hn⟩
  · rintro ⟨h, hn⟩
    exact ⟨by omega, hn⟩

/-- `getRoot`: which proofs it accepts, and what it computes. -/
theorem getRoot_spec (s : SparseMerkle) (leaf : Hash) (index : UInt64) (proof : Bytes) :
    if proof.length % 32 = 8 ∧ proof.length ≤ 2056 ∧
        8 + 32 * BinTree.setBelow (bitsOf proof).toNat 64 ≤ proof.length then
      ∃ r, getRoot E s leaf index proof = .ok r ∧
        r.1 = BinTree.climb (hashPair E.keccak) (siblingOf s proof) index.toNat leaf.1 64
    else getRoot E s leaf index proof = .error .revert := by
  rw [getRoot]
  -- the two ways to revert: the check of the length, and a bit without a hash
  by_cases hcheck : proof.length % 32 = 8 ∧ proof.length ≤ 2056
  · have hlen : 8 ≤ proof.length := by omega
    have hloop := foldlM_getRootRound (E := E) s leaf index hlen 64
    rw [require, if_pos ((proofLength_iff _).mpr hcheck)]
    by_cases hbits : 8 + 32 * BinTree.setBelow (bitsOf proof).toNat 64 ≤ proof.length
    · rw [if_pos hbits] at hloop
      rw [if_pos ⟨hcheck.1, hcheck.2, hbits⟩]
      obtain ⟨c, hc, hat⟩ := hloop
      exact ⟨c.computedHash, bind_eq_ok.mpr ⟨(), rfl, bind_eq_ok.mpr ⟨c, hc, rfl⟩⟩,
        hat.computedHash⟩
    · rw [if_neg hbits] at hloop
      rw [if_neg fun h => hbits h.2.2]
      change ((List.range 64).foldlM (getRootRound E s proof) ⟨leaf, 8, bitsOf proof, index⟩
        >>= fun c => Except.ok c.computedHash) = _
      rw [hloop]
      rfl
  · rw [if_neg fun h => hcheck ⟨h.1, h.2.1⟩]
    exact require_bind_of_not fun h => hcheck ((proofLength_iff _).mp h)

/-! ## Proofs in bytes -/

section
variable {p : Smt.Proof}

theorem bitsOf_bytes : bitsOf p.bytes = p.proofBits := by
  have htake : p.bytes.take 8 = uInt64ToByte p.proofBits := by
    rw [Smt.Proof.bytes, List.take_left' (length_uInt64ToByte _)]
  have h := bytesToUint64_uInt64ToByte p.proofBits
  rw [bytesToUint64, List.take_of_length_le (by simp)] at h
  rw [bitsOf, htake, h]

/-- A proof with enough hashes is checked to the end. -/
theorem checkLoop_of_enough (v : Bytes) {i : ℕ} (hi : i ≤ 64)
    (h : BinTree.setBelow p.proofBits.toNat i ≤ p.proof.length) :
    ∃ x, Smt.checkLoop E.keccak p v i = .ok x := by
  induction i with
  | zero => exact ⟨_, rfl⟩
  | succ i ih =>
    have hle := setBelow_le_succ p.proofBits.toNat i
    obtain ⟨⟨cur, rest⟩, hx⟩ := ih (by omega) (by omega)
    obtain ⟨-, hrest⟩ := Smt.checkLoop_eq_climb (by omega) hx
    rw [Smt.checkLoop, hx]
    simp only [bind, Except.bind, Smt.bit_set_iff p.proofBits hi]
    by_cases hbit : p.proofBits.toNat.testBit i
    · rw [if_pos hbit]
      rcases rest with _ | ⟨b, rest⟩
      · -- there is a hash left
        rw [BinTree.setBelow, hbit, Bool.toNat_true] at h
        have := List.drop_eq_nil_iff.mp hrest.symm
        omega
      · exact ⟨_, rfl⟩
    · rw [if_neg hbit]
      exact ⟨_, rfl⟩

variable (h32 : ∀ b ∈ p.proof, b.length = 32)
include h32

theorem length_bytes : p.bytes.length = 8 + 32 * p.proof.length := by
  rw [Smt.Proof.bytes, List.length_append, length_uInt64ToByte, Bytes.length_flatten h32]

theorem hashesOf_bytes : hashesOf p.bytes = p.proof := by
  have hcount : (p.bytes.length - 8) / 32 = p.proof.length := by
    rw [length_bytes h32]
    omega
  apply List.ext_getElem?
  intro j
  rw [hashesOf, hcount, List.getElem?_map]
  by_cases hj : j < p.proof.length
  · rw [List.getElem?_range hj, List.getElem?_eq_getElem hj]
    have hslice : Bytes.slice p.bytes (8 + 32 * j) 32 =
      Bytes.slice p.proof.flatten (32 * j) 32 := by
      rw [Smt.Proof.bytes, ← length_uInt64ToByte p.proofBits, Bytes.slice_append_right]
    rw [Option.map_some, hslice, Nat.mul_comm,
      Bytes.slice_flatten h32 (List.getElem?_eq_getElem hj)]
  · rw [List.getElem?_eq_none (by simpa using hj), List.getElem?_eq_none (by simpa using hj)]
    rfl

/-- `getRoot` on the bytes of a proof with one hash for each set bit. -/
theorem getRoot_bytes (s : SparseMerkle) (leaf : Hash) (tokenID : UInt64)
    (hcount : p.proof.length = BinTree.setBelow p.proofBits.toNat 64) :
    ∃ r, getRoot E s leaf tokenID p.bytes = .ok r ∧
      r.1 = BinTree.climb (hashPair E.keccak) (BinTree.proofSibling p.proofBits.toNat p.proof
        fun i => (s.defaultHashes i).1) tokenID.toNat leaf.1 64 := by
  have hbound : ∀ bits i, BinTree.setBelow bits i ≤ i := by
    intro bits i
    induction i with
    | zero => rfl
    | succ i ih =>
      have := Bool.toNat_le (bits.testBit i)
      rw [BinTree.setBelow]
      omega
  have hlength := length_bytes h32
  have hspec := getRoot_spec (E := E) s leaf tokenID p.bytes
  rw [bitsOf_bytes, if_pos (by
    have := hbound p.proofBits.toNat 64
    omega)] at hspec
  obtain ⟨r, hr, hclimb⟩ := hspec
  refine ⟨r, hr, hclimb.trans ?_⟩
  apply BinTree.climb_congr
  intro i _
  rw [siblingOf, bitsOf_bytes, hashesOf_bytes h32]

end

/-! ## Results -/

/-- The contract accepts the bytes of every proof with one hash for each set bit, and answers as
`Check` of the tree does for the key of the token. -/
theorem checkMembership_eq_check (hempty : E.keccak [] = emptyHash) (tokenID : UInt64)
    (leaf root : Hash) {p : Smt.Proof} (hkey : p.key.1 = uInt64ToByte tokenID)
    (h32 : ∀ b ∈ p.proof, b.length = 32)
    (hcount : p.proof.length = BinTree.setBelow p.proofBits.toNat 64) :
    ∃ s b, newSparseMerkle E = .ok s ∧ checkMembership E s leaf root tokenID p.bytes = .ok b ∧
      p.check E.keccak leaf.1 root.1 = .ok b := by
  obtain ⟨s, hs, hdefault⟩ := newSparseMerkle_defaultHashes hempty
  -- what the contract computes
  obtain ⟨r, hr, hclimb⟩ := getRoot_bytes (E := E) h32 s leaf tokenID hcount
  -- what the tree computes
  obtain ⟨⟨cur, rest⟩, hloop⟩ := checkLoop_of_enough (E := E) leaf.1 le_rfl hcount.ge
  obtain ⟨hcur, -⟩ := Smt.checkLoop_eq_climb le_rfl hloop
  have hnum : Smt.num p.key = tokenID.toNat := by
    rw [Smt.num, hkey, uInt64ToByte, Bytes.ofBE_toBE_of_lt tokenID.toNat_lt]
  have hsame : r.1 = cur := by
    rw [hclimb, hcur, hnum]
    apply BinTree.climb_congr
    intro i hi
    rw [Smt.Proof.sibling, BinTree.proofSibling, BinTree.proofSibling, hdefault i (by omega)]
  refine ⟨s, decide (r = root), hs, bind_eq_ok.mpr ⟨r, hr, rfl⟩, ?_⟩
  rw [Smt.Proof.check, show Smt.treeDepth = 64 from rfl, hloop, ← hsame]
  simp only [bind, Except.bind, Subtype.ext_iff]

/-- A hash with the right value for the empty string. -/
def headHash (b : Bytes) : Hash := if b = [] then emptyHash else bytes32 (b.drop 16)

theorem checkMembership_eq_check_twoHashes : ∃ s b,
    newSparseMerkle ⟨headHash, fun _ _ _ _ => Plasma.zeroAddress⟩ = .ok s ∧
      checkMembership ⟨headHash, fun _ _ _ _ => Plasma.zeroAddress⟩ s zeroHash zeroHash 7
        (Smt.Proof.bytes ⟨Smt.keyOf 7, [emptyHash.1, Bytes.zeros 32], 5⟩) = .ok b ∧
      Smt.Proof.check headHash ⟨Smt.keyOf 7, [emptyHash.1, Bytes.zeros 32], 5⟩ zeroHash.1 zeroHash.1
        = .ok b :=
  checkMembership_eq_check (E := ⟨headHash, fun _ _ _ _ => Plasma.zeroAddress⟩)
    (p := ⟨Smt.keyOf 7, [emptyHash.1, Bytes.zeros 32], 5⟩) rfl 7 zeroHash zeroHash rfl
    (by decide) (by decide)

end GoPlasma.Contract
