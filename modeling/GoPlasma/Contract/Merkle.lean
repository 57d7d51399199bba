import GoPlasma.Contract.Solidity
import GoPlasma.Merkle.CheckTheorems

/-!
# `Merkle.sol`

The library that computes the root of a binary Merkle tree from a leaf and a proof on the root
chain. It reads the proof from memory, where the data of a byte array is behind its length.

`getRoot` climbs along the words of the proof as `CheckProof` does along the words behind the leaf,
so the two verifiers agree on every proof that consists of words: `getRoot_iff_checkProof`.
-/

namespace GoPlasma.Contract.Merkle

open GoPlasma.Merkle (checkProof toProof node word word_append_zero word_append_succ rootOf wordOf
  weightHash)

variable (E : Evm)

/-- The body of the loop of `getRoot`; the offset `i` counts from the length of the proof. -/
def getRootRound (mem : Memory) (s : Hash × ℕ) (i : ℕ) : Hash × ℕ :=
  let proofElement := mem.read (i - 32) 32
  let computedHash :=
    if s.2 % 2 = 0 then E.keccak (s.1.1 ++ proofElement) else E.keccak (proofElement ++ s.1.1)
  (computedHash, s.2 / 2)

/-- `getRoot`: `i` takes the values 32, 64, … up to the length of the proof. -/
def getRoot (behind : Memory) (leaf : Hash) (index : ℕ) (proof : Bytes) : Hash :=
  ((List.range' 32 (proof.length / 32) 32).foldl (getRootRound E (memoryOf proof behind))
    (leaf, index)).1

variable {E} {behind : Memory} {leaf : Hash} {index : ℕ} {proof : Bytes}

/-- The loop of `getRoot`. -/
theorem foldl_getRootRound {n : ℕ} (h : 32 * n ≤ proof.length) :
    ∃ hash : Hash, hash.1 = BinTree.climb (node E.keccak) (word proof) index leaf.1 n ∧
      (List.range' 32 n 32).foldl (getRootRound E (memoryOf proof behind)) (leaf, index)
        = (hash, index / 2 ^ n) := by
  induction n with
  | zero => exact ⟨leaf, rfl, by simp⟩
  | succ n ih =>
    obtain ⟨hash, hclimb, hrun⟩ := ih (by omega)
    have hread : (memoryOf proof behind).read (32 + 32 * n - 32) 32 = word proof n := by
      rw [read_memoryOf (by omega), word, show 32 + 32 * n - 32 = n * 32 by omega]
    rw [List.range'_concat, List.foldl_append, hrun, List.foldl_cons, List.foldl_nil]
    refine ⟨_, ?_, Prod.ext rfl ?_⟩
    · rw [getRootRound, hread, BinTree.climb, BinTree.testBit_eq_mod, ← hclimb]
      rcases Nat.mod_two_eq_zero_or_one (index / 2 ^ n) with hb | hb
      · simp [hb, node, GoPlasma.Merkle.computehash]
      · simp [hb, node, GoPlasma.Merkle.computehash]
    · rw [getRootRound, pow_succ, Nat.div_div_eq_div_mul]

/-- `getRoot` gives the root that the leaf and the words of the proof lead to. -/
theorem getRoot_eq {n : ℕ} (h : proof.length = 32 * n) :
    (getRoot E behind leaf index proof).1 = rootOf E.keccak (leaf.1 ++ proof) index n := by
  obtain ⟨hash, hclimb, hrun⟩ :=
    @foldl_getRootRound E behind leaf index proof n (by omega)
  have hrounds : proof.length / 32 = n := by omega
  rw [getRoot, hrounds, hrun, hclimb, rootOf, word_append_zero leaf.2]
  exact BinTree.climb_congr _ fun k _ => (word_append_succ leaf.2 k).symm

/-- The two verifiers agree, whatever the memory holds behind the proof. -/
theorem getRoot_iff_checkProof (E : Evm) (behind : Memory) (leaf root : Hash) (index : ℕ)
    {mkproof : Bytes} {n : ℕ} (hn : 1 ≤ n) (hlen : mkproof.length = 32 * n)
    (hleaf : mkproof.take 32 = leaf.1) :
    (∃ r, checkProof E.keccak root.1 mkproof index = .ok (.ok (true, r))) ↔
      ∃ p, toProof root.1 mkproof index = .ok p ∧
        getRoot E behind leaf p.index p.proof = root := by
  obtain ⟨n, rfl⟩ : ∃ m, n = m + 1 := ⟨n - 1, by omega⟩
  have hproof : toProof root.1 mkproof index = .ok ⟨index, root.1, mkproof.drop 32⟩ := by
    have hdrop : Bytes.slice mkproof 32 (mkproof.length - 32) = mkproof.drop 32 := by
      rw [Bytes.slice, List.take_of_length_le (by rw [List.length_drop])]
    rw [toProof, GoPlasma.Merkle.window, if_pos (by omega), hdrop]
    rfl
  have hroot : (getRoot E behind leaf index (mkproof.drop 32)).1
      = rootOf E.keccak mkproof index n := by
    rw [getRoot_eq (n := n) (by rw [List.length_drop]; omega), ← hleaf, List.take_append_drop]
  rw [GoPlasma.Merkle.checkProof_eq hlen]
  constructor
  · rintro ⟨r, h⟩
    have heq := of_decide_eq_true (Prod.mk.inj (Except.ok.inj (Except.ok.inj h))).1
    exact ⟨_, hproof, Subtype.ext (hroot.trans heq.symm)⟩
  · rintro ⟨p, hp, h⟩
    obtain rfl := Except.ok.inj (hproof.symm.trans hp)
    rw [← hroot, h, decide_eq_true rfl]
    exact ⟨_, rfl⟩

/-- A proof of the second of two leaves. -/
theorem getRoot_iff_checkProof_two :
    (∃ r, checkProof weightHash (weightHash (wordOf 1 ++ wordOf 2)).1 (wordOf 2 ++ wordOf 1) 1
      = .ok (.ok (true, r))) ↔
    ∃ p, toProof (weightHash (wordOf 1 ++ wordOf 2)).1 (wordOf 2 ++ wordOf 1) 1 = .ok p ∧
      getRoot ⟨weightHash, fun _ _ _ _ => Plasma.zeroAddress⟩ (fun _ => 0) ⟨wordOf 2, rfl⟩ p.index
        p.proof = weightHash (wordOf 1 ++ wordOf 2) :=
  getRoot_iff_checkProof ⟨weightHash, fun _ _ _ _ => Plasma.zeroAddress⟩ (fun _ => 0)
    ⟨wordOf 2, rfl⟩ (weightHash (wordOf 1 ++ wordOf 2)) 1 (n := 2) (by decide) (by decide)
    (by decide)

end GoPlasma.Contract.Merkle
