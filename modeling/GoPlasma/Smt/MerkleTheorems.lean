import GoPlasma.Smt.KeyTheorems

/-!
# The compressed tree has the root of the complete tree

The abstract layer of the tree: a trie of entries over the hexadecimal digits of the key, in
which a terminal node is a leaf of the trie. `trieRoot` is its Merkle root computed the way
the nodes do it, piece by piece with default hashes; `trieRoot_eq_root` says that it is the
root of the complete binary tree over the entries.

The loops of `computeMerkleRootCache` and of the terminal case of `computeMerkleRoot` are
identified with `BinTree.root` and `BinTree.climb` on the way.
-/

namespace GoPlasma.Smt

/-- The tree without its caches, flags and storage. -/
abbrev EntryTrie := Trie 16 Entry

variable (keccak : Bytes → Hash)

/-! ## The loops -/

theorem defaultHashes_eq_empty (l : ℕ) :
    defaultHashes keccak l = BinTree.empty (hashPair keccak) (keccak []).1 l := by
  induction l with
  | zero => rfl
  | succ l ih => rw [defaultHashes, BinTree.empty, ih]

theorem mrcache_eq_root (slots : Fin 16 → Bytes) (j i : ℕ) :
    mrcache keccak slots j i
      = BinTree.root (hashPair keccak) (fun i => slots (Fin.ofNat 16 i)) j i := by
  induction j generalizing i with
  | zero => rfl
  | succ j ih => rw [mrcache, BinTree.root_succ, ih, ih]

theorem terminalHash_eq_climb (k : Key) (v : Bytes) {i : ℕ} (hi : i ≤ 64) :
    terminalHash keccak k v i
      = BinTree.climb (hashPair keccak) (defaultHashes keccak) (num k) v i := by
  induction i with
  | zero => rfl
  | succ i ih =>
    rw [terminalHash, BinTree.climb, ih (by omega), keyBit_eq_testBit k (by omega)]

/-! ## Roots of tries -/

/-- The Merkle root of a trie of height `r`, piece by piece. -/
def trieRoot : ℕ → EntryTrie → Bytes
  | r, .nil => defaultHashes keccak (4 * r)
  | r, .leaf k e => BinTree.climb (hashPair keccak) (defaultHashes keccak) k e.value (4 * r)
  | 0, .branch _ => []
  | r + 1, .branch c => mrcache keccak (fun j => trieRoot r (c j)) 4 0

@[simp] theorem trieRoot_nil (r : ℕ) : trieRoot keccak r .nil = defaultHashes keccak (4 * r) := by
  unfold trieRoot
  rfl

@[simp] theorem trieRoot_leaf (r k : ℕ) (e : Entry) : trieRoot keccak r (.leaf k e)
    = BinTree.climb (hashPair keccak) (defaultHashes keccak) k e.value (4 * r) := by
  unfold trieRoot
  rfl

theorem trieRoot_branch (r : ℕ) (c : Fin 16 → EntryTrie) :
    trieRoot keccak (r + 1) (.branch c) =
      mrcache keccak (fun j => trieRoot keccak r (c j)) 4 0 := rfl

/-- Leaf `n` of the complete tree over a trie of height `r`. -/
def trieLeaf (r : ℕ) (t : EntryTrie) (n : ℕ) : Bytes :=
  match t.find r n with
  | none => (keccak []).1
  | some e => e.value

theorem pow_sixteen (r : ℕ) : 2 ^ (4 * r) = 16 ^ r := by
  rw [pow_mul]
  norm_num

/-- The leaves below child `i` of a branch are those of the child. -/
theorem trieLeaf_child {r p i q : ℕ} (hi : i < 16) (ts : Fin 16 → EntryTrie)
    (hq : q / 2 ^ (4 * r) = 16 * p + i) :
    trieLeaf keccak (r + 1) (.branch ts) q = trieLeaf keccak r (ts (Fin.ofNat 16 i)) q := by
  have hval : ((Fin.ofNat 16 i : Fin 16) : ℕ) = i := Nat.mod_eq_of_lt hi
  rw [pow_sixteen] at hq
  have hd : (Trie.digit r q : Fin 16) = Fin.ofNat 16 i :=
    Trie.digit_of_div (p := p) (by rw [hq, hval])
  simp only [trieLeaf, Trie.find_branch, hd]

/-- Next to a single key, every subtree is empty. -/
theorem defaultHashes_eq_sibling (r k i : ℕ) (e : Entry) :
    defaultHashes keccak i
      = BinTree.root (hashPair keccak) (trieLeaf keccak r (.leaf k e)) i
          (BinTree.sibling (k / 2 ^ i)) := by
  rw [defaultHashes_eq_empty]
  symm
  apply BinTree.root_eq_empty
  intro q hq
  have hne : q ≠ k := by
    intro h
    rw [h] at hq
    exact BinTree.sibling_ne _ hq.symm
  simp [trieLeaf, hne]

/-- A trie of height `r` under the digits `p` has the root of its complete subtree. -/
theorem trieRoot_eq_root {r p : ℕ} {t : EntryTrie} (ht : t.WF r p) :
    trieRoot keccak r t = BinTree.root (hashPair keccak) (trieLeaf keccak r t) (4 * r) p := by
  induction r generalizing p t with
  | zero =>
    rcases t with _ | ⟨k, e⟩ | c
    · simp [trieLeaf, defaultHashes]
    · have hk : k = p := by simpa using Trie.wf_leaf.mp ht
      simp [trieLeaf, BinTree.climb, hk]
    · exact ht.elim
  | succ r ih =>
    rcases t with _ | ⟨k, e⟩ | c
    · have hconst : trieLeaf keccak (r + 1) .nil = fun _ => (keccak []).1 := by
        funext n
        simp [trieLeaf]
      rw [trieRoot_nil, hconst, BinTree.root_const, defaultHashes_eq_empty]
    · have hk : k / 2 ^ (4 * (r + 1)) = p := by
        rw [pow_sixteen]
        exact Trie.wf_leaf.mp ht
      have hleaf : trieLeaf keccak (r + 1) (.leaf k e) k = e.value := by simp [trieLeaf]
      rw [trieRoot_leaf, ← hleaf, ← hk]
      -- a lone leaf: all siblings on the way up are default hashes
      apply BinTree.climb_eq_root (hashPair keccak) (trieLeaf keccak (r + 1) (.leaf k e))
      intro i _
      exact defaultHashes_eq_sibling keccak (r + 1) k i e
    · -- cut the complete subtree four levels below its root: below are the children
      rw [trieRoot_branch, mrcache_eq_root, show 4 * (r + 1) = 4 * r + 4 by ring, BinTree.root_add]
      rw [show p = p + 0 by rfl, ← BinTree.root_shift]
      apply BinTree.root_congr
      intro j hj
      have hj16 : j < 16 := by simpa using hj
      have hval : ((Fin.ofNat 16 j : Fin 16) : ℕ) = j := Nat.mod_eq_of_lt hj16
      have hc := ht (Fin.ofNat 16 j)
      rw [hval] at hc
      rw [ih hc, Nat.mul_comm p]
      apply BinTree.root_congr
      intro q hq
      exact (trieLeaf_child keccak hj16 c hq).symm

/-! ## Tries and contents -/

/-- The trie holds exactly these contents. -/
structure Holds (t : EntryTrie) (m : Contents) : Prop where
  wf : t.WF nkeypieces 0
  find_eq : ∀ k, t.find nkeypieces (num k) = m k

variable {keccak}

theorem Holds.leaf_eq {t : EntryTrie} {m : Contents} (h : Holds t m) {n : ℕ} (hn : n < 2 ^ 64) :
    trieLeaf keccak nkeypieces t n = m.leaf keccak n := by
  have hfind := h.find_eq (keyOf n)
  rw [num_keyOf hn] at hfind
  unfold trieLeaf Contents.leaf
  rcases hm : m (keyOf n) with _ | e
  · rw [hfind.trans hm]
  · rw [hfind.trans hm]

/-- The Merkle root of a tree is that of the complete tree over its contents. -/
theorem Holds.root_eq {t : EntryTrie} {m : Contents} (h : Holds t m) :
    trieRoot keccak nkeypieces t = m.root keccak := by
  rw [trieRoot_eq_root keccak h.wf]
  apply BinTree.root_congr
  intro q hq
  have hq64 : q < 2 ^ 64 := by
    have := (Nat.div_eq_zero_iff (b := 2 ^ (4 * nkeypieces))).mp hq
    unfold nkeypieces at this
    omega
  exact h.leaf_eq hq64

theorem holds_empty : Holds (.branch fun _ => .nil) Contents.empty where
  wf := by
    intro j
    exact Trie.wf_nil _ _
  find_eq := by
    intro k
    exact Trie.find_nil _ _

/-- What `insert` does to the contents. -/
theorem Holds.upsert {t : EntryTrie} {m : Contents} (h : Holds t m) (k : Key)
    (f : Option Entry → Entry) :
    Holds (t.upsert (num k) f nkeypieces) (Function.update m k (some (f (m k)))) where
  wf := Trie.wf_upsert f (num_div_top k) h.wf
  find_eq := by
    intro k'
    rw [Trie.find_upsert f (num_div_top k) h.wf, h.find_eq, h.find_eq, Function.update_apply]
    by_cases hk : k' = k
    · rw [if_pos hk, if_pos (by rw [hk])]
    · rw [if_neg hk, if_neg fun h => hk (num_inj h)]

/-- What `delete` does to the contents. -/
theorem Holds.delete {t : EntryTrie} {m : Contents} (h : Holds t m) (k : Key) :
    Holds (t.delete (num k) nkeypieces) (Function.update m k none) where
  wf := Trie.wf_delete h.wf
  find_eq := by
    intro k'
    rw [Trie.find_delete h.wf, h.find_eq, Function.update_apply]
    by_cases hk : k' = k
    · rw [if_pos hk, if_pos (by rw [hk])]
    · rw [if_neg hk, if_neg fun h => hk (num_inj h)]

end GoPlasma.Smt
