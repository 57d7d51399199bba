import GoPlasma.Smt.WorldTheorems

/-!
# Siblings and default hashes

Which default hashes the sibling of a key can be equal to, in a tree that was flushed, if
`Keccak256` has no collisions on the strings that were hashed for the tree and for the empty
subtrees: only the one of its own height, and that one only if all leaves below it are the default
one (`siblingAt_eq_default_iff`, `siblingAt_ne_default`).

A flush returns only if no two keys agree in all but the last piece, so that of two leaves next to
each other one is the default one. Values may then have any length.
-/

namespace GoPlasma.Smt

variable {keccak : Bytes → Hash}

variable (keccak) in
/-- The strings that are hashed for the empty subtrees and for the tree over the contents. -/
def treeStrings (m : Contents) : Set Bytes :=
  {b | b = [] ∨ b ∈ hashedPairs keccak Contents.empty (treeDepth - 1)
    ∨ b ∈ hashedPairs keccak m treeDepth}

theorem treeStrings_subset {w : World} {a : Ideal} {m : Contents} (hm : m ∈ a.flushed) :
    treeStrings keccak m ⊆ hashedInputs keccak w a := by
  rintro b (rfl | hb | hb)
  · exact Or.inl rfl
  · exact Or.inr (Or.inr (Or.inl hb))
  · exact Or.inr (Or.inr (Or.inr ⟨m, hm, hb⟩))

/-! ## Default hashes -/

/-- The complete tree over nothing. -/
theorem root_empty (d p : ℕ) : BinTree.root (hashPair keccak) (Contents.empty.leaf keccak) d p
    = defaultHashes keccak d := by
  rw [defaultHashes_eq_empty]
  exact BinTree.root_const (hashPair keccak) _ d p

theorem length_defaultHashes (i : ℕ) : (defaultHashes keccak i).length = 32 := by
  rw [← root_empty i 0]
  exact length_root (fun _ => (keccak []).2) i 0

variable {m : Contents}

theorem defaultPair_mem {e : ℕ} (he : e < 63) :
    defaultHashes keccak e ++ defaultHashes keccak e ∈ treeStrings keccak m := by
  refine Or.inr (Or.inl ⟨_, ⟨e, 0, he, rfl⟩, ?_⟩)
  rw [root_empty, root_empty]

/-- A default hash above the leaves is not the default leaf. -/
theorem defaultHashes_ne (hinj : Set.InjOn keccak (treeStrings keccak m)) {e : ℕ} (he : e < 63) :
    defaultHashes keccak (e + 1) ≠ (keccak []).1 := by
  intro h
  have heq := hinj (defaultPair_mem he) (Or.inl rfl) (Subtype.ext h)
  have hlen := congrArg List.length heq
  rw [List.length_append, length_defaultHashes] at hlen
  cases hlen

/-! ## Below a root that is a default hash -/

/-- The pairs above the leaves have halves of 32 bytes, whatever the leaves are. -/
theorem pair_inj {m' : Contents} {H : Set Bytes} (hinj : Set.InjOn keccak H) {d : ℕ}
    (hm : hashedPairs keccak m (d + 1) ⊆ H) (hm' : hashedPairs keccak m' (d + 1) ⊆ H) :
    ∀ x ∈ BinTree.pairs (hashPair keccak)
        (BinTree.root (hashPair keccak) (m.leaf keccak) 1) d,
      ∀ y ∈ BinTree.pairs (hashPair keccak)
        (BinTree.root (hashPair keccak) (m'.leaf keccak) 1) d,
      Function.uncurry (hashPair keccak) x = Function.uncurry (hashPair keccak) y → x = y := by
  rintro x ⟨h, p, hh, rfl⟩ y ⟨h', p', hh', rfl⟩ heq
  simp only [← BinTree.root_add, Function.uncurry_apply_pair] at heq ⊢
  have hstr := hinj (hm ⟨_, ⟨1 + h, p, by omega, rfl⟩, rfl⟩)
    (hm' ⟨_, ⟨1 + h', p', by omega, rfl⟩, rfl⟩) (Subtype.ext heq)
  have hlen : ∀ (c : Contents) i q,
      (BinTree.root (hashPair keccak) (c.leaf keccak) (1 + i) q).length = 32 := by
    intro c i q
    rw [Nat.add_comm]
    exact length_hashPair _ _
  obtain ⟨h₁, h₂⟩ := List.append_inj hstr ((hlen m h _).trans (hlen m' h' _).symm)
  exact Prod.ext h₁ h₂

/-- Below a root that is a default hash, the leaves next to each other are halves of the string of a
default hash. -/
theorem leafPair_eq (hinj : Set.InjOn keccak (treeStrings keccak m)) {i e p : ℕ}
    (hd : i + 1 + e < treeDepth)
    (heq : BinTree.root (hashPair keccak) (m.leaf keccak) (i + 1) p
      = defaultHashes keccak (i + 1 + e)) {q : ℕ} (hq : q < 2 ^ i) :
    m.leaf keccak (2 * (p * 2 ^ i + q)) ++ m.leaf keccak (2 * (p * 2 ^ i + q) + 1)
      = defaultHashes keccak e ++ defaultHashes keccak e := by
  unfold treeDepth at hd
  rw [← root_empty (i + 1 + e) 0, Nat.add_comm i 1, Nat.add_assoc, BinTree.root_add,
    BinTree.root_add] at heq
  have hleaf := BinTree.root_inj_of_pairs (hashPair keccak) (d := 62)
    (pair_inj hinj (fun b hb => Or.inr (Or.inr ?_)) fun b hb => Or.inr (Or.inl hb))
    (by omega) heq q hq
  · rw [← BinTree.root_add, root_empty, Nat.add_comm 1 e, defaultHashes, BinTree.root_succ] at hleaf
    refine hinj (Or.inr (Or.inr ⟨_, ⟨0, _, by decide, rfl⟩, rfl⟩)) (defaultPair_mem (by omega))
      (Subtype.ext hleaf)
  · obtain ⟨x, ⟨h, p', hh, rfl⟩, rfl⟩ := hb
    exact ⟨_, ⟨h, p', by unfold treeDepth; omega, rfl⟩, rfl⟩

/-- A string of two halves of which one is known. -/
theorem halves_eq {a b d z : Bytes} (hz : z.length = d.length) (h : a ++ b = d ++ d)
    (hab : a = z ∨ b = z) : a = d ∧ b = d ∧ z = d := by
  rcases hab with rfl | rfl
  · obtain ⟨rfl, rfl⟩ := List.append_inj h hz
    exact ⟨rfl, rfl, rfl⟩
  · obtain ⟨rfl, rfl⟩ := List.append_inj' h hz
    exact ⟨rfl, rfl, rfl⟩

variable {ts : Fin 16 → EntryTrie}

/-- A leaf that is not `Keccak256()` belongs to a key. -/
theorem Holds.find_of_leaf {t : EntryTrie} (hm : Holds t m) {n : ℕ}
    (hn : n < 2 ^ 64) (hleaf : m.leaf keccak n ≠ (keccak []).1) : t.find nkeypieces n ≠ none := by
  intro hnone
  apply hleaf
  rw [← hm.leaf_eq hn, trieLeaf, hnone]

/-- Of two leaves next to each other one is the default one. -/
theorem Holds.leaf_or_leaf (hm : Holds (.branch ts) m) (hs : Trie.Shallow nkeypieces (.branch ts))
    {x : ℕ} (hx : x < 2 ^ 63) :
    m.leaf keccak (2 * x) = (keccak []).1 ∨ m.leaf keccak (2 * x + 1) = (keccak []).1 := by
  by_contra hne
  rw [not_or] at hne
  have heq := Trie.eq_of_shallow hm.wf hs (hm.find_of_leaf (by omega) hne.1)
    (hm.find_of_leaf (by omega) hne.2) (by omega)
  omega

/-- The leaves below a sibling of a key. -/
theorem lt_of_sibling {k : Key} {i q : ℕ} (hi : i < treeDepth)
    (hq : q / 2 ^ i = BinTree.sibling (num k / 2 ^ i)) : q < 2 ^ 64 := by
  have htop : q / 2 ^ 64 = num k / 2 ^ 64 := BinTree.div_pow_of_sibling hq hi
  have := num_lt k
  omega

/-- Below a sibling that is a default hash, the default leaf is that hash, as far down. -/
theorem Holds.leaf_of_siblingAt (hm : Holds (.branch ts) m)
    (hs : Trie.Shallow nkeypieces (.branch ts)) (hinj : Set.InjOn keccak (treeStrings keccak m))
    {k : Key} {i e : ℕ} (hd : i + 1 + e < treeDepth)
    (heq : siblingAt keccak (m.leaf keccak) (num k) (i + 1) = defaultHashes keccak (i + 1 + e))
    {q : ℕ} (hq : q / 2 ^ (i + 1) = BinTree.sibling (num k / 2 ^ (i + 1))) :
    m.leaf keccak q = defaultHashes keccak e ∧ (keccak []).1 = defaultHashes keccak e := by
  have hlt := lt_of_sibling (by omega) hq
  have hsplit : q / 2 = BinTree.sibling (num k / 2 ^ (i + 1)) * 2 ^ i + q / 2 % 2 ^ i := by
    rw [← hq, Nat.pow_succ', ← Nat.div_div_eq_div_mul, Nat.div_add_mod']
  have hpair := leafPair_eq hinj hd heq (Nat.mod_lt (q / 2) (Nat.two_pow_pos i))
  rw [← hsplit] at hpair
  obtain ⟨h₁, h₂, hz⟩ := halves_eq ((keccak []).2.trans (length_defaultHashes e).symm) hpair
    (hm.leaf_or_leaf hs (by omega))
  refine ⟨?_, hz⟩
  rcases Nat.mod_two_eq_zero_or_one q with hmod | hmod
  · rwa [show 2 * (q / 2) = q by omega] at h₁
  · rwa [show 2 * (q / 2) + 1 = q by omega] at h₂

/-- A sibling is the default hash of its height exactly if all leaves below it are the default
one. -/
theorem Holds.siblingAt_eq_default_iff (hm : Holds (.branch ts) m)
    (hs : Trie.Shallow nkeypieces (.branch ts)) (hinj : Set.InjOn keccak (treeStrings keccak m))
    (k : Key) {i : ℕ} (hi : i < treeDepth) :
    siblingAt keccak (m.leaf keccak) (num k) i = defaultHashes keccak i ↔
      ∀ q, q / 2 ^ i = BinTree.sibling (num k / 2 ^ i) → m.leaf keccak q = (keccak []).1 := by
  constructor
  · intro heq q hq
    rcases i with _ | i
    · rw [pow_zero, Nat.div_one] at hq
      rw [siblingAt, BinTree.root_zero, pow_zero] at heq
      rw [hq]
      exact heq
    · exact (hm.leaf_of_siblingAt (e := 0) hs hinj hi heq hq).1
  · intro hleaf
    rw [siblingAt, defaultHashes_eq_empty]
    exact BinTree.root_eq_empty (hashPair keccak) hleaf

/-- The sibling of a key that is there is not the default hash of a larger height. -/
theorem Holds.siblingAt_ne_default (hm : Holds (.branch ts) m)
    (hs : Trie.Shallow nkeypieces (.branch ts)) (hinj : Set.InjOn keccak (treeStrings keccak m))
    {k : Key} (hk : m k ≠ none) {i e : ℕ} (hd : i + (e + 1) < treeDepth) :
    siblingAt keccak (m.leaf keccak) (num k) i ≠ defaultHashes keccak (i + (e + 1)) := by
  intro heq
  have hne : defaultHashes keccak (e + 1) ≠ (keccak []).1 := by
    unfold treeDepth at hd
    exact defaultHashes_ne hinj (by omega)
  rcases i with _ | i
  · -- the sibling is a leaf next to the key itself
    rw [siblingAt, BinTree.root_zero, pow_zero, Nat.div_one, Nat.zero_add] at heq
    have hlt := lt_of_sibling (k := k) (i := 0) (q := BinTree.sibling (num k)) (by decide) (by simp)
    have hthere := hm.find_of_leaf hlt (heq ▸ hne)
    have hself : Trie.find nkeypieces (num k) (.branch ts) ≠ none := by
      rwa [hm.find_eq]
    have htwo := BinTree.sibling_div_two (num k)
    exact BinTree.sibling_ne _ (Trie.eq_of_shallow hm.wf hs hthere hself (by omega))
  · have hq : BinTree.sibling (num k / 2 ^ (i + 1)) * 2 ^ (i + 1) / 2 ^ (i + 1)
        = BinTree.sibling (num k / 2 ^ (i + 1)) := Nat.mul_div_cancel _ (Nat.two_pow_pos _)
    exact hne (hm.leaf_of_siblingAt hs hinj hd heq hq).2.symm

end GoPlasma.Smt
