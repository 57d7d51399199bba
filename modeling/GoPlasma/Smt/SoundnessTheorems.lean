import GoPlasma.Smt.DurabilityTheorems
import GoPlasma.Smt.MemoryTheorems

/-!
# Proofs cannot lie

Whoever chooses the bits and the hashes of a proof, `Check` against the Merkle root of a flushed
tree succeeds only for the value that the tree has under the key of the proof, or for
`Keccak256()` where it has none. `Check` is a climb from the leaf to the root; where no two of the
strings that are hashed collide, it is on the path of the tree at every height.
-/

namespace GoPlasma.Smt

variable {keccak : Bytes → Hash}

/-! ## `Check` as a climb -/

variable (keccak) in
/-- The sibling that `Check` uses at height `i`. -/
def Proof.sibling (p : Proof) (i : ℕ) : Bytes :=
  BinTree.proofSibling p.proofBits.toNat p.proof (defaultHashes keccak) i

variable (keccak) in
/-- The strings that `Check` hashes. -/
def Proof.hashedInputs (p : Proof) (v : Bytes) : Set Bytes :=
  {b | ∃ i < treeDepth, ∃ x, x = BinTree.climbPair (hashPair keccak) (p.sibling keccak)
    (num p.key) v i
    ∧ b = x.1 ++ x.2}

/-- The loop of `Check`, as far as it does not run out of hashes. -/
theorem checkLoop_eq_climb {p : Proof} {v cur : Bytes} {rest : List Bytes} {i : ℕ} (hi : i ≤ 64)
    (h : checkLoop keccak p v i = .ok (cur, rest)) :
    cur = BinTree.climb (hashPair keccak) (p.sibling keccak) (num p.key) v i
      ∧ rest = p.proof.drop (BinTree.setBelow p.proofBits.toNat i) := by
  induction i generalizing cur rest with
  | zero =>
    obtain ⟨rfl, rfl⟩ := Prod.mk.inj (Except.ok.inj h)
    exact ⟨rfl, rfl⟩
  | succ i ih =>
    have hlt : i < 64 := hi
    rw [checkLoop] at h
    rcases hl : checkLoop keccak p v i with e | ⟨cur₀, rest₀⟩
    · rw [hl] at h
      cases h
    obtain ⟨rfl, hrest⟩ := ih hlt.le hl
    simp only [hl, bind, Except.bind, bit_set_iff p.proofBits hlt] at h
    rw [BinTree.climb, BinTree.setBelow, ← keyBit_eq_testBit p.key hlt, Proof.sibling,
      BinTree.proofSibling]
    by_cases hbit : p.proofBits.toNat.testBit i
    · -- the next hash of the proof
      rw [if_pos hbit] at h ⊢
      rcases rest₀ with _ | ⟨s, rest₁⟩
      · cases h
      obtain ⟨rfl, rfl⟩ := Prod.mk.inj (Except.ok.inj h)
      have hget : p.proof[BinTree.setBelow p.proofBits.toNat i]? = some s := by
        rw [← List.head?_drop, ← hrest]
        rfl
      have hdrop : p.proof.drop (BinTree.setBelow p.proofBits.toNat i + 1) = rest₁ := by
        rw [← List.tail_drop, ← hrest]
        rfl
      rw [hget, hbit]
      exact ⟨rfl, hdrop.symm⟩
    · rw [if_neg hbit] at h ⊢
      obtain ⟨rfl, rfl⟩ := Prod.mk.inj (Except.ok.inj h)
      rw [Bool.not_eq_true _ |>.mp hbit]
      exact ⟨rfl, hrest⟩

/-- What `Check` compares with the root. -/
theorem climb_of_check {p : Proof} {v root : Bytes} (h : p.check keccak v root = .ok true) :
    BinTree.climb (hashPair keccak) (p.sibling keccak) (num p.key) v 64 = root := by
  rw [Proof.check] at h
  rcases hl : checkLoop keccak p v treeDepth with e | ⟨cur, rest⟩
  · rw [hl] at h
    cases h
  · rw [hl] at h
    rw [← (checkLoop_eq_climb le_rfl hl).1]
    exact of_decide_eq_true (Except.ok.inj h)

theorem length_proofSibling {bits : ℕ} {hashes : List Bytes} (h : ∀ b ∈ hashes, b.length = 32)
    (i : ℕ) : (BinTree.proofSibling bits hashes (defaultHashes keccak) i).length = 32 := by
  rw [BinTree.proofSibling]
  split_ifs
  · rcases hb : hashes[BinTree.setBelow bits i]? with _ | b
    · exact length_defaultHashes i
    · exact h b (List.mem_of_getElem? hb)
  · exact length_defaultHashes i

/-- A climb to the root of the contents starts at the leaf of its key. -/
theorem leaf_of_climb {m : Contents} {sib : ℕ → Bytes} {n : ℕ} {v : Bytes} {H : Set Bytes}
    (h32 : m.Values32) (hsib : ∀ i, (sib i).length = 32) (hv : v.length = 32) (hn : n < 2 ^ 64)
    (hinj : Set.InjOn keccak H) (hm : hashedPairs keccak m treeDepth ⊆ H)
    (hH : ∀ i < treeDepth, (BinTree.climbPair (hashPair keccak) sib n v i).1
      ++ (BinTree.climbPair (hashPair keccak) sib n v i).2 ∈ H)
    (h : BinTree.climb (hashPair keccak) sib n v 64 = m.root keccak) : v = m.leaf keccak n := by
  have hclimb : ∀ i, (BinTree.climb (hashPair keccak) sib n v i).length = 32 := by
    intro i
    rcases i with _ | i
    · exact hv
    · rw [BinTree.climb_succ]
      exact length_hashPair _ _
  -- all strings have two words, so that they can be cut into their halves
  have hpairs : Set.InjOn (Function.uncurry (hashPair keccak))
      (BinTree.pairs (hashPair keccak) (m.leaf keccak) treeDepth
        ∪ {x | ∃ i < treeDepth, x = BinTree.climbPair (hashPair keccak) sib n v i}) := by
    refine injOn_hashPair hinj ?_
    rintro x (hx | ⟨i, hi, rfl⟩)
    · refine ⟨hm ⟨x, hx, rfl⟩, ?_⟩
      obtain ⟨h, p, -, rfl⟩ := hx
      exact length_root h32.length_leaf _ _
    · refine ⟨hH i hi, ?_⟩
      rw [BinTree.climbPair]
      split_ifs
      · exact hsib i
      · exact hclimb i
  apply BinTree.climb_inj (hashPair keccak) hpairs
  rw [show n / 2 ^ treeDepth = 0 from Nat.div_eq_of_lt hn]
  exact h

/-! ## Flushed trees -/

variable (keccak) in
/-- A tree in memory right after a `Flush` that returned, with its contents: a new tree after any
calls, or any tree of a run on one store whose steps meet the conditions of `StepOk`. -/
inductive FlushedTree : Node → Contents → Prop where
  | fresh (calls : List Call) {s s' : Store} {n t : Node} {writes : List (Bytes × Bytes)}
      (hcalls : execAll keccak calls s SparseMerkleTree.new = .ok (n, s'))
      (hflush : SparseMerkleTree.flush keccak s'.getChunk n = .ok (t, writes)) :
      FlushedTree t (Contents.after calls Contents.empty)
  | inRun {ops : List Op} {w : World} {j : ℕ} {f : Flushed} {m : Contents}
      (hrun : run keccak ops = .ok w) (hok : Meets keccak (StepOk keccak) ops)
      (hcf : CollisionFree keccak (Smt.hashedInputs keccak w (ideal ops)))
      (hf : w.flushed[j]? = some f) (hm : (ideal ops).flushed[j]? = some m) :
      FlushedTree f.tree m

/-- The Merkle root of a flushed tree is that of its contents, and `Get` answers with them. -/
theorem FlushedTree.spec {t : Node} {m : Contents} (h : FlushedTree keccak t m) (cs : Reader) :
    (SparseMerkleTree.merkleRoot t).1 = m.root keccak
      ∧ ∀ k, ∃ res t', SparseMerkleTree.get keccak cs k t = .ok (res, t')
        ∧ res.answer = answerOf (m k) := by
  have hlen : (m.root keccak).length = 32 := length_hashPair _ _
  rcases h with ⟨calls, hcalls, hflush⟩ | ⟨hrun, hok, hcf, hf, hm⟩
  · obtain ⟨⟨ts, ht, hm⟩, hroot⟩ := (inMemory_new.execAll hcalls).flush hflush
    refine ⟨?_, fun k => ?_⟩
    · rw [SparseMerkleTree.merkleRoot, hroot, bytesToHash_of_length hlen]
    · obtain ⟨res, t', hget, -, hans, -⟩ :=
        treeGet_represents (Backing.memory_serves Stale cs) (fun _ h => h) ht hm k
      exact ⟨res, t', hget, hans⟩
  · obtain ⟨m', hm', hflushed⟩ := ListRel.getElem? (run_refines hrun hok hcf).flushed hf
    obtain rfl : m = m' := Option.some.inj (hm.symm.trans hm')
    refine ⟨?_, fun k => ?_⟩
    · obtain ⟨ts, ht⟩ := hflushed
      rw [SparseMerkleTree.merkleRoot, ht.merkle, bytesToHash_of_length hlen]
    · obtain ⟨res, t', hget, hans, -⟩ := hflushed.gets cs k
      exact ⟨res, t', hget, hans⟩

/-- A proof that checks against the Merkle root of a flushed tree shows the value of its key, or
that the tree has none; and that is what `Get` answers. -/
theorem check_sound {t : Node} {m : Contents} {p : Proof} {v : Bytes}
    (ht : FlushedTree keccak t m) (h32 : m.Values32) (hv : v.length = 32)
    (hproof : ∀ b ∈ p.proof, b.length = 32)
    (hinj : Set.InjOn keccak (hashedPairs keccak m treeDepth ∪ p.hashedInputs keccak v))
    (hcheck : p.check keccak v (SparseMerkleTree.merkleRoot t).1 = .ok true) (cs : Reader) :
    ∃ res t', SparseMerkleTree.get keccak cs p.key t = .ok (res, t')
      ∧ ((∃ e, m p.key = some e ∧ e.value = v ∧ res.found = true ∧ res.v0 = v)
        ∨ (m p.key = none ∧ v = (keccak []).1 ∧ res.found = false)) := by
  obtain ⟨hroot, hget⟩ := ht.spec cs
  obtain ⟨res, t', hres, hans⟩ := hget p.key
  refine ⟨res, t', hres, ?_⟩
  have hclimb := climb_of_check hcheck
  rw [hroot] at hclimb
  have hleaf : v = m.leaf keccak (num p.key) :=
    leaf_of_climb h32 (length_proofSibling hproof) hv (num_lt p.key) hinj
      Set.subset_union_left (fun i hi => .inr ⟨i, hi, _, rfl, rfl⟩) hclimb
  rw [Contents.leaf, keyOf_num] at hleaf
  -- an absent key has the leaf of the empty string
  rcases hk : m p.key with _ | e
  · simp only [hk] at hleaf
    rw [hk] at hans
    exact .inr ⟨rfl, hleaf, (Prod.mk.inj (Prod.mk.inj hans).2).1⟩
  · simp only [hk] at hleaf
    rw [hk] at hans
    obtain ⟨h0, h'⟩ := Prod.mk.inj hans
    exact .inl ⟨e, rfl, hleaf.symm, (Prod.mk.inj h').1, h0.trans hleaf.symm⟩

/-- The honest proof of a key hashes strings of the tree. -/
theorem Proof.hashedInputs_subset {m : Contents} {p : Proof}
    (hsib : ∀ i < treeDepth, p.sibling keccak i = siblingAt keccak (m.leaf keccak) (num p.key) i) :
    p.hashedInputs keccak (m.leaf keccak (num p.key)) ⊆ hashedPairs keccak m treeDepth := by
  rintro b ⟨i, hi, x, rfl, rfl⟩
  exact ⟨_, BinTree.climbPair_mem_pairs (hashPair keccak) (m.leaf keccak) hi fun j hj =>
    hsib j (lt_of_le_of_lt hj hi), rfl⟩

/-- The proof without hashes, for a tree with one key. -/
def bareProof : Proof := ⟨keyOf (2 ^ 63), [], 0⟩

theorem bareProof_sibling : ∀ i < treeDepth, bareProof.sibling toyKeccak i
    = siblingAt toyKeccak ((Contents.single (keyOf (2 ^ 63)) 70).leaf toyKeccak)
        (num bareProof.key) i := by
  have htoy : ∀ i < treeDepth, bareProof.sibling toyKeccak i =
    (toyHash (toyRoot (keyOf (2 ^ 63)) 70 i
      (BinTree.sibling (num (keyOf (2 ^ 63)) / 2 ^ i)))).1 := by decide +kernel
  intro i hi
  rw [htoy i hi, ← root_single (keyOf (2 ^ 63)) (.inr rfl) (le_of_lt hi)]
  rfl

theorem check_sound_inserted : ∃ w f, run toyKeccak (insertFlush (keyOf (2 ^ 63))) = .ok w
    ∧ w.flushed[0]? = some f
    ∧ bareProof.check toyKeccak (toyHash 70).1 (SparseMerkleTree.merkleRoot f.tree).1 = .ok true
    ∧ ∃ res t', SparseMerkleTree.get toyKeccak w.store.getChunk (keyOf (2 ^ 63)) f.tree
        = .ok (res, t')
      ∧ ((∃ e, Contents.single (keyOf (2 ^ 63)) 70 (keyOf (2 ^ 63)) = some e
          ∧ e.value = (toyHash 70).1 ∧ res.found = true ∧ res.v0 = (toyHash 70).1)
        ∨ (Contents.single (keyOf (2 ^ 63)) 70 (keyOf (2 ^ 63)) = none
          ∧ (toyHash 70).1 = (toyKeccak []).1 ∧ res.found = false)) := by
  obtain ⟨w, f, hrun, hcf, hf⟩ := insertFlush_run
  have hflushed : FlushedTree toyKeccak f.tree (Contents.single (keyOf (2 ^ 63)) 70) :=
    .inRun hrun (insertFlush_meets _) hcf hf rfl
  have h32 : (Contents.single (keyOf (2 ^ 63)) 70).Values32 :=
    (run_refines hrun (insertFlush_meets _) hcf).flushedValues _ List.mem_cons_self
  have hcheck : bareProof.check toyKeccak (toyHash 70).1 (SparseMerkleTree.merkleRoot f.tree).1
      = .ok true := by
    have hroot : (Contents.single (keyOf (2 ^ 63)) 70).root toyKeccak = (toyHash 134).1 :=
      root_single (keyOf (2 ^ 63)) (.inr rfl) le_rfl 0
    rw [(hflushed.spec w.store.getChunk).1, hroot]
    decide +kernel
  have hleaf : (Contents.single (keyOf (2 ^ 63)) 70).leaf toyKeccak (num bareProof.key)
      = (toyHash 70).1 := by
    rw [Contents.leaf, keyOf_num, Contents.single, bareProof, Function.update_self]
  have hinj : Set.InjOn toyKeccak (hashedPairs toyKeccak (Contents.single (keyOf (2 ^ 63)) 70)
    treeDepth
      ∪ bareProof.hashedInputs toyKeccak (toyHash 70).1) := by
    have hsub := Proof.hashedInputs_subset bareProof_sibling
    rw [hleaf] at hsub
    rw [Set.union_eq_self_of_subset_right hsub]
    exact hcf.inj.mono fun b hb => .inr (.inr (.inr ⟨_, List.mem_cons_self, hb⟩))
  exact ⟨w, f, hrun, hf, hcheck, check_sound hflushed h32 (toyHash 70).2
    (by simp [bareProof]) hinj hcheck w.store.getChunk⟩

end GoPlasma.Smt
