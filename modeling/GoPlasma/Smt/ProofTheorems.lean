import GoPlasma.Smt.RootTheorems

/-!
# Membership proofs

`generateProof` collects the siblings of a key from the bottom up and leaves out those it takes
for empty; `Proof.Check` climbs from the value to the root and fills the gaps with default
hashes. `Covers` is what the two share: a proof, finished up to a height, from which the
sibling at every lower height can be read off.

A sibling at height `4 * r + j` is left out when it equals the default hash of height
`60 + j`, whatever `r` is, and below the terminal of the key all of them are left out
(`included`). The hypothesis `NoFalseDefault` says that the first is only so for empty siblings.
-/

namespace GoPlasma.Smt

variable {keccak : Bytes → Hash} {R : ℕ → Prop} {B : Backing} {pcs : Reader}

/-! ## Bits of a `uint64` -/

theorem toNat_one_shiftLeft {i : ℕ} (hi : i < 64) :
    ((1 : UInt64) <<< UInt64.ofNat i).toNat = 2 ^ i := by
  have hpow : 2 ^ i < 2 ^ 64 := Nat.pow_lt_pow_right (by norm_num) hi
  have hof : (UInt64.ofNat i).toNat = i := by
    rw [UInt64.toNat_ofNat']
    omega
  rw [UInt64.toNat_shiftLeft, hof, Nat.mod_eq_of_lt hi, UInt64.toNat_one, Nat.one_shiftLeft,
    Nat.mod_eq_of_lt hpow]

/-- The bit test of `Check`. -/
theorem bit_set_iff (bits : UInt64) {i : ℕ} (hi : i < 64) :
    ((1 : UInt64) <<< UInt64.ofNat i) &&& bits > 0 ↔ bits.toNat.testBit i = true := by
  rw [gt_iff_lt, UInt64.lt_iff_toNat_lt, UInt64.toNat_and, toNat_one_shiftLeft hi, Nat.two_pow_and]
  cases bits.toNat.testBit i <;> simp

theorem testBit_setBit (bits : UInt64) {i : ℕ} (hi : i < 64) (b : ℕ) :
    (setBit bits (i : ℤ)).toNat.testBit b = (bits.toNat.testBit b || decide (b = i)) := by
  have hrange : (0 : ℤ) ≤ i ∧ (i : ℤ) < 64 := by omega
  rw [setBit, if_pos hrange, UInt64.toNat_or, Int.toNat_natCast, toNat_one_shiftLeft hi,
    Nat.testBit_or, Nat.testBit_two_pow]
  congr 1
  exact decide_eq_decide.mpr eq_comm

/-! ## What a proof says -/

variable (keccak) in
/-- The siblings below height `i` can be read off the proof: `inc` are the heights that have
their own hash in it. -/
structure Covers (sib : ℕ → Bytes) (inc : ℕ → Bool) (i : ℕ) (p : Proof) : Prop where
  hashes : p.proof = ((List.range i).filter inc).map sib
  bits : ∀ b < 64, p.proofBits.toNat.testBit b = (decide (b < i) && inc b)
  default : ∀ b < i, inc b = false → sib b = defaultHashes keccak b

/-- The loop of `Check` climbs with the siblings that the proof covers. -/
theorem Covers.checkLoop_eq {sib : ℕ → Bytes} {inc : ℕ → Bool} {p : Proof}
    (h : Covers keccak sib inc treeDepth p) (v : Bytes) {i : ℕ} (hi : i ≤ 64) :
    checkLoop keccak p v i = .ok (BinTree.climb (hashPair keccak) sib (num p.key) v i,
      ((List.range' i (64 - i)).filter inc).map sib) := by
  induction i with
  | zero =>
    rw [checkLoop, h.hashes, List.range_eq_range']
    rfl
  | succ i ih =>
    have hlt : i < 64 := hi
    have hrange : List.range' i (64 - i) = i :: List.range' (i + 1) (64 - (i + 1)) := by
      rw [show 64 - i = (64 - (i + 1)) + 1 by omega, List.range'_succ]
    rw [checkLoop, ih (by omega), hrange, BinTree.climb, keyBit_eq_testBit p.key hlt]
    simp only [bind, Except.bind, bit_set_iff p.proofBits hlt, h.bits i hlt]
    rcases hinc : inc i with _ | _
    · -- the sibling is a default hash
      have hd := h.default i hlt hinc
      simp [hinc, hd]
    · simp [hinc, treeDepth, hlt]

variable (keccak) in
/-- The sibling of the path of leaf `n` at height `i`. -/
def siblingAt (leaf : ℕ → Bytes) (n i : ℕ) : Bytes :=
  BinTree.root (hashPair keccak) leaf i (BinTree.sibling (n / 2 ^ i))

/-- A proof that covers all siblings checks against the root. -/
theorem Covers.check {leaf : ℕ → Bytes} {inc : ℕ → Bool} {p : Proof}
    (h : Covers keccak (siblingAt keccak leaf (num p.key)) inc treeDepth p) :
    p.check keccak (leaf (num p.key)) (BinTree.root (hashPair keccak) leaf treeDepth 0)
      = .ok true := by
  have hclimb : BinTree.climb (hashPair keccak) (siblingAt keccak leaf (num p.key)) (num p.key)
      (leaf (num p.key)) 64 = BinTree.root (hashPair keccak) leaf 64 (num p.key / 2 ^ 64) :=
    BinTree.climb_eq_root (hashPair keccak) leaf fun i _ => rfl
  have htop : num p.key / 2 ^ 64 = 0 := Nat.div_eq_of_lt (num_lt p.key)
  rw [htop] at hclimb
  rw [Proof.check, show treeDepth = 64 from rfl, h.checkLoop_eq (leaf (num p.key)) le_rfl]
  simp only [bind, Except.bind, hclimb, decide_true]

/-! ## One node of a proof -/

variable (keccak) in
/-- No sibling is left out of the proof of leaf `n` without being empty. -/
def NoFalseDefault (leaf : ℕ → Bytes) (n : ℕ) : Prop :=
  ∀ r < nkeypieces, ∀ j < 4,
    siblingAt keccak leaf n (4 * r + j) = defaultHashes keccak (treeDepth - bitsPerPiece + j) →
    siblingAt keccak leaf n (4 * r + j) = defaultHashes keccak (4 * r + j)

theorem sisterIndex_eq (i : ℕ) : sisterIndex i = BinTree.sibling i := rfl

/-- The cache of a node, next to the path of `n`, has the siblings of `n` in its four levels. -/
theorem mrcache_sibling {leaf : ℕ → Bytes} {r p n : ℕ} {ts : Fin 16 → EntryTrie}
    (hwf : Trie.WF (r + 1) p (.branch ts)) (hn : n / 16 ^ (r + 1) = p)
    (hleaf : ∀ q, q / 16 ^ (r + 1) = p → trieLeaf keccak (r + 1) (.branch ts) q = leaf q)
    {j : ℕ} (hj : j < 4) :
    mrcache keccak (fun i => trieRoot keccak r (ts i)) j
        (sisterIndex ((Trie.digit r n : Fin 16) / 2 ^ j))
      = siblingAt keccak leaf n (4 * r + j) := by
  -- the position at this height, counted in the 16 slots of the node
  have hpos : n / 2 ^ (4 * r + j) = 2 ^ (4 - j) * p + (Trie.digit r n : Fin 16) / 2 ^ j := by
    rw [pow_add, pow_sixteen, ← Nat.div_div_eq_div_mul, Trie.div_pow_eq hn,
      show 16 * p = 2 ^ j * (2 ^ (4 - j) * p) by
        rw [← mul_assoc, ← pow_add, show j + (4 - j) = 4 by omega]; norm_num,
      Nat.mul_add_div (by positivity)]
  have heven : 2 ^ (4 - j) * p % 2 = 0 := by
    rw [show 4 - j = (3 - j) + 1 by omega, pow_succ, mul_right_comm]
    omega
  have hoff : 2 ^ (4 - j) * p * 2 ^ j = 16 * p := by
    rw [mul_right_comm, ← pow_add, show 4 - j + j = 4 by omega]
    norm_num
  rw [siblingAt, hpos, BinTree.sibling_add heven, BinTree.root_add, ← BinTree.root_shift, hoff,
    mrcache_eq_root, sisterIndex_eq]
  apply BinTree.root_congr
  intro i hi
  have hi16 : i < 16 := by
    have hi4 := BinTree.div_pow_of_sibling hi (by omega : j < 4)
    have := (Trie.digit r n : Fin 16).isLt
    omega
  have hval : ((Fin.ofNat 16 i : Fin 16) : ℕ) = i := Nat.mod_eq_of_lt hi16
  have hc := hwf (Fin.ofNat 16 i)
  rw [hval] at hc
  rw [trieRoot_eq_root keccak hc]
  apply BinTree.root_congr
  intro q hq
  rw [← trieLeaf_child keccak hi16 ts hq]
  apply hleaf
  rw [pow_sixteen] at hq
  rw [pow_succ, ← Nat.div_div_eq_div_mul, hq]
  omega

/-- The proof has the hashes of the heights below `i` that are in `inc`. -/
structure Collects (sib : ℕ → Bytes) (inc : ℕ → Bool) (i : ℕ) (p : Proof) : Prop where
  hashes : p.proof = ((List.range i).filter inc).map sib
  bits : ∀ b < 64, p.proofBits.toNat.testBit b = (decide (b < i) && inc b)

theorem Collects.covers {sib : ℕ → Bytes} {inc : ℕ → Bool} {i : ℕ} {p : Proof}
    (h : Collects sib inc i p) (hdef : ∀ b < i, inc b = false → sib b = defaultHashes keccak b) :
    Covers keccak sib inc i p :=
  ⟨h.hashes, h.bits, hdef⟩

variable (keccak) in
/-- Whether the sibling at height `i` is in the proof of leaf `n`, whose terminal is at height
`4 * h`. -/
def included (leaf : ℕ → Bytes) (n h i : ℕ) : Bool :=
  decide (4 * h ≤ i) &&
    decide (siblingAt keccak leaf n i ≠ defaultHashes keccak (treeDepth - bitsPerPiece + i % 4))

/-- One more height. -/
theorem Collects.extend {sib : ℕ → Bytes} {inc : ℕ → Bool} {i : ℕ} {p p' : Proof}
    (h : Collects sib inc i p) (hproof : p'.proof = p.proof ++ if inc i then [sib i] else [])
    (hbits : ∀ b, p'.proofBits.toNat.testBit b =
      (p.proofBits.toNat.testBit b || (decide (b = i) && inc i))) :
    Collects sib inc (i + 1) p' := by
  refine ⟨?_, fun b hb => ?_⟩
  · rw [hproof, List.range_succ, List.filter_append, List.map_append, ← h.hashes]
    cases hi : inc i with
    | false => simp [hi]
    | true => simp [hi]
  · rw [hbits, h.bits b hb]
    rcases lt_trichotomy b i with hlt | rfl | hlt
    · simp [hlt, hlt.ne, Nat.lt_succ_of_lt hlt]
    · simp
    · simp [hlt.ne', not_lt.mpr hlt.le, not_lt.mpr (Nat.succ_le_of_lt hlt)]

/-- One round of the loop over the levels of a node. -/
theorem Collects.round {sib : ℕ → Bytes} {inc : ℕ → Bool} {r j : ℕ} {p : Proof}
    {c : Fin 16 → Node} {idx : ℕ} (h : Collects sib inc (4 * r + j) p) (hrj : 4 * r + j < 64)
    (hsib : mrcache keccak (slots keccak (levelOf (r + 1)) c) j (sisterIndex (idx / 2 ^ j))
      = sib (4 * r + j))
    (hinc : inc (4 * r + j) =
      decide (sib (4 * r + j) ≠ defaultHashes keccak (treeDepth - bitsPerPiece + j))) :
    Collects sib inc (4 * r + j + 1) (proofRound keccak (levelOf (r + 1)) c idx p j) := by
  have hexp : levelOf (r + 1) - 3 + j = ((4 * r + j : ℕ) : ℤ) := by
    unfold levelOf
    push_cast
    ring
  rw [proofRound, hsib]
  by_cases hdef : sib (4 * r + j) = defaultHashes keccak (treeDepth - bitsPerPiece + j)
  · -- the hash is left out, since it is taken for a default one
    have hno : inc (4 * r + j) = false := by rw [hinc, decide_eq_false (not_not.mpr hdef)]
    simp only [if_pos hdef]
    exact h.extend (by simp [hno]) (by simp [hno])
  · have hyes : inc (4 * r + j) = true := by rw [hinc, decide_eq_true hdef]
    simp only [if_neg hdef]
    refine h.extend (by simp [hyes]) fun b => ?_
    rw [hexp, testBit_setBit p.proofBits hrj, hyes, Bool.and_true]

/-- A round does not touch the key of the proof. -/
theorem proofRounds_key (level : ℤ) (c : Fin 16 → Node) (idx : ℕ) (l : List ℕ) (p : Proof) :
    (l.foldl (proofRound keccak level c idx) p).key = p.key := by
  induction l generalizing p with
  | nil => rfl
  | cons j l ih =>
    rw [List.foldl_cons, ih, proofRound]
    split <;> rfl

/-- At the terminal the proof is empty. -/
theorem collects_terminal (leaf : ℕ → Bytes) (n r : ℕ) {p : Proof} (hp : p.proof = []) :
    Collects (siblingAt keccak leaf n) (included keccak leaf n r) (4 * r)
      { p with proofBits := 0 } := by
  have hno : ∀ b < 4 * r, included keccak leaf n r b = false := by
    intro b hb
    rw [included, decide_eq_false (not_le.mpr hb), Bool.false_and]
  refine ⟨?_, fun b _ => ?_⟩
  · rw [List.filter_eq_nil_iff.mpr fun b hb => by simp [hno b (List.mem_range.mp hb)]]
    exact hp
  · by_cases hb : b < 4 * r
    · simp [hno b hb]
    · simp [hb]

/-- The loop over the four levels of a node. -/
theorem Collects.rounds {leaf : ℕ → Bytes} {r h p n : ℕ} (hr : r < nkeypieces) (hh : h ≤ r)
    {pr : Proof} {c : Fin 16 → Node} {ts : Fin 16 → EntryTrie}
    (hcol : Collects (siblingAt keccak leaf n) (included keccak leaf n h) (4 * r) pr)
    (hslots : slots keccak (levelOf (r + 1)) c = fun j => trieRoot keccak r (ts j))
    (hwf : Trie.WF (r + 1) p (.branch ts)) (hn : n / 16 ^ (r + 1) = p)
    (hleaf : ∀ q, q / 16 ^ (r + 1) = p → trieLeaf keccak (r + 1) (.branch ts) q = leaf q)
    {m : ℕ} (hm : m ≤ 4) :
    Collects (siblingAt keccak leaf n) (included keccak leaf n h) (4 * r + m)
      ((List.range m).foldl
        (proofRound keccak (levelOf (r + 1)) c (Trie.digit r n : Fin 16)) pr) := by
  induction m with
  | zero => exact hcol
  | succ m ih =>
    rw [List.range_succ, List.foldl_append]
    apply (ih (by omega)).round
    · unfold nkeypieces at hr
      omega
    · rw [hslots]
      exact mrcache_sibling hwf hn hleaf (by omega)
    · rw [included, decide_eq_true (by omega : 4 * h ≤ 4 * r + m), Bool.true_and,
        show (4 * r + m) % 4 = m by omega]

/-- Below the terminal of a key that is there all siblings are empty. -/
theorem siblingAt_below {leaf : ℕ → Bytes} {r n b : ℕ} {t : EntryTrie} (hn : t.find r n ≠ none)
    (hleaf : ∀ q, q / 16 ^ r = n / 16 ^ r → trieLeaf keccak r t q = leaf q)
    (hb : b < 4 * t.leafHeight r n) :
    siblingAt keccak leaf n b = defaultHashes keccak b := by
  rw [siblingAt, defaultHashes_eq_empty]
  apply BinTree.root_eq_empty
  intro q hq
  have hh := Trie.leafHeight_le r n t
  have hdiv := BinTree.div_pow_of_sibling hq hb
  have htop := BinTree.div_pow_of_sibling hq (lt_of_lt_of_le hb (by omega : _ ≤ 4 * r))
  rw [pow_sixteen] at hdiv htop
  have hne : q ≠ n := by
    rintro rfl
    exact BinTree.sibling_ne _ hq.symm
  rw [← hleaf q htop, trieLeaf, Trie.find_of_leafHeight hn hne hdiv]

/-! ## The whole proof -/

/-- `generateProof` for a key that is there. It changes nothing that the node stands for, and
where the cached roots below it are right the proof has the siblings in its subtree that are
`included`. -/
theorem generateProof_represents (hB : B.Serves keccak R pcs) (hdown : ∀ r, R (r + 1) → R r)
    {r : ℕ} (hr : r ≤ nkeypieces)
    {n : Node} {ts : Fin 16 → EntryTrie} {p : ℕ} {k : Key} {e : Entry}
    (hn : Represents keccak R B r n (.branch ts)) (hwf : Trie.WF r p (.branch ts))
    (hk : num k / 16 ^ r = p) (hfind : Trie.find r (num k) (.branch ts) = some e) (pr : Proof)
    (hpr : pr.proof = []) {leaf : ℕ → Bytes}
    (hleaf : ∀ q, q / 16 ^ r = p → trieLeaf keccak r (.branch ts) q = leaf q) :
    ∃ pr' n', generateProof keccak pcs r k pr n = .ok (true, pr', n')
      ∧ Represents keccak R B r n' (.branch ts) ∧ pr'.key = pr.key
      ∧ ((∀ q < r, R q) → Collects (siblingAt keccak leaf (num k))
          (included keccak leaf (num k) (Trie.leafHeight r (num k) (.branch ts))) (4 * r) pr') := by
  induction r generalizing p n ts with
  | zero => exact hn.elim
  | succ r ih =>
    obtain ⟨d, c, c', rfl, hload, hl⟩ := load_represents hB hn
    have hkr : num k / 16 ^ r = 16 * p + (Trie.digit r (num k) : Fin 16) := Trie.div_pow_eq hk
    have hleaf' : ∀ q, q / 16 ^ r = 16 * p + (Trie.digit r (num k) : Fin 16) →
        trieLeaf keccak r (ts (Trie.digit r (num k))) q = leaf q := by
      intro q hq
      have hd : (Trie.digit r q : Fin 16) = Trie.digit r (num k) := Trie.digit_of_div hq
      rw [← hleaf q (by rw [pow_succ, ← Nat.div_div_eq_div_mul, hq]; omega)]
      simp only [trieLeaf, Trie.find_branch, hd]
    -- the child on the path, whatever it is, and the proof below it
    obtain ⟨cd, cc, cd', cc', pr₁, child, hc, hcload, hgen, hchild, hkey, hcol⟩ :
        ∃ cd cc cd' cc' pr₁ child, c' (Trie.digit r (num k)) = .mk cd cc
          ∧ load pcs cd cc = .ok (cd', cc')
          ∧ childProof (generateProof keccak pcs r k) pr cd' cc' = .ok (true, pr₁, child)
          ∧ Represents keccak R B r child (ts (Trie.digit r (num k))) ∧ pr₁.key = pr.key
          ∧ ((∀ q < r, R q) → Collects (siblingAt keccak leaf (num k))
              (included keccak leaf (num k)
                (Trie.leafHeight r (num k) (ts (Trie.digit r (num k))))) (4 * r) pr₁) := by
      have hrep := hl.children (Trie.digit r (num k))
      rw [Trie.find_branch] at hfind
      rcases ht : ts (Trie.digit r (num k)) with _ | ⟨k', e'⟩ | ts'
      · rw [ht, Trie.find_nil] at hfind
        cases hfind
      · rw [ht] at hrep
        obtain ⟨cd, hc, hd, -⟩ := represents_leaf.mp hrep
        refine ⟨cd, _, cd, _, { pr with proofBits := 0 }, .mk cd fun _ => .nil, hc,
          load_of_loaded hd.loaded _, by rw [childProof, if_pos hd.terminal], hc ▸ hrep, rfl, ?_⟩
        rw [Trie.leafHeight_leaf]
        exact fun _ => collects_terminal leaf (num k) r hpr
      · rw [ht] at hrep hfind hleaf'
        have hwf' := hwf (Trie.digit r (num k))
        rw [ht] at hwf'
        obtain ⟨cd, cc, cd', cc', hc, hcload, hterm, hrep'⟩ := load_inner hB hrep
        obtain ⟨pr₁, child, hgen, hchild, hkey, hcol⟩ := ih (by omega) hrep' hwf' hkr hfind hleaf'
        refine ⟨cd, cc, cd', cc', pr₁, child, hc, hcload, ?_, hchild, hkey, hcol⟩
        rw [childProof, if_neg (by simp [hterm]), hgen]
    have hchildren := represents_update (Trie.digit r (num k)) hl.children hchild
    rw [Function.update_eq_self] at hchildren
    obtain ⟨root, hroot, hrooteq⟩ := computeMerkleRootCache_eq hr hchildren
    rw [← hl.level] at hroot
    unfold generateProof
    simp only [hload, bind, Except.bind, keypiece_eq_digit k hr, hc, hcload, hgen, hroot, if_true]
    refine ⟨_, _, rfl, Loaded.represents ?_, ?_, ?_⟩
    · exact ⟨hl.level, hl.terminal, fun hR => hrooteq (hdown r hR), hl.loaded, hl.clean, hchildren⟩
    · rw [proofRounds_key, hkey]
    · intro hR
      have hcol := hcol fun q hq => hR q (by omega)
      have hlev : d.level = levelOf (r + 1) := hl.level
      rw [hlev, Trie.leafHeight_branch]
      exact hcol.rounds hr (Trie.leafHeight_le _ _ _) (slots_eq hchildren (hR r (by omega))) hwf hk
        hleaf le_rfl

/-- The proof of a key that is there, in a tree that stands for these contents: where the cached
roots below the root node are right it has the siblings that are `included`. -/
theorem treeProof_collects (hB : B.Serves keccak R pcs) (hdown : ∀ r, R (r + 1) → R r) {n : Node}
    {ts : Fin 16 → EntryTrie} {m : Contents}
    (hn : Represents keccak R B nkeypieces n (.branch ts)) (hm : Holds (.branch ts) m) {k : Key}
    {e : Entry} (hmk : m k = some e) :
    ∃ p n', generateProof keccak pcs nkeypieces k ⟨k, [], 0⟩ n = .ok (true, p, n')
      ∧ Represents keccak R B nkeypieces n' (.branch ts) ∧ p.key = k
      ∧ ((∀ q < nkeypieces, R q) → Collects (siblingAt keccak (m.leaf keccak) (num k))
          (included keccak (m.leaf keccak) (num k)
            (Trie.leafHeight nkeypieces (num k) (.branch ts))) treeDepth p) := by
  have hleaf : ∀ q, q / 16 ^ nkeypieces = 0 →
      trieLeaf keccak nkeypieces (.branch ts) q = m.leaf keccak q := by
    intro q hq
    apply hm.leaf_eq
    exact (Nat.div_eq_zero_iff.mp hq).resolve_left (by decide)
  exact generateProof_represents hB hdown le_rfl hn hm.wf (num_div_top k)
    ((hm.find_eq k).trans hmk) ⟨k, [], 0⟩ rfl hleaf

/-- `Get` of a key that is there returns that proof. -/
theorem treeGet_collects (hB : B.Serves keccak R pcs) (hdown : ∀ r, R (r + 1) → R r) {n : Node}
    {ts : Fin 16 → EntryTrie} {m : Contents}
    (hn : Represents keccak R B nkeypieces n (.branch ts)) (hm : Holds (.branch ts) m) {k : Key}
    {e : Entry} (hmk : m k = some e) :
    ∃ res n' p, SparseMerkleTree.get keccak pcs k n = .ok (res, n') ∧ res.p = some p
      ∧ ((∀ q < nkeypieces, R q) → Collects (siblingAt keccak (m.leaf keccak) (num k))
          (included keccak (m.leaf keccak) (num k)
            (Trie.leafHeight nkeypieces (num k) (.branch ts))) treeDepth p) := by
  obtain ⟨n₁, hget, hn₁⟩ := get_represents hB le_rfl hn k
  rw [hm.find_eq k, hmk] at hget
  obtain ⟨p, n₂, hgen, -, -, hcol⟩ := treeProof_collects hB hdown hn₁ hm hmk
  unfold SparseMerkleTree.get
  simp only [hget, hgen, bind, Except.bind, if_true]
  exact ⟨_, n₂, p, rfl, rfl, hcol⟩

/-- Where the cached roots below the root node are right the proof checks. -/
theorem treeProof_represents (hB : B.Serves keccak R pcs) (hdown : ∀ r, R (r + 1) → R r) {n : Node}
    {ts : Fin 16 → EntryTrie} {m : Contents}
    (hn : Represents keccak R B nkeypieces n (.branch ts)) (hm : Holds (.branch ts) m) {k : Key}
    {e : Entry} (hmk : m k = some e) :
    ∃ p n', generateProof keccak pcs nkeypieces k ⟨k, [], 0⟩ n = .ok (true, p, n')
      ∧ Represents keccak R B nkeypieces n' (.branch ts)
      ∧ ((∀ q < nkeypieces, R q) → NoFalseDefault keccak (m.leaf keccak) (num k) →
          p.check keccak e.value (m.root keccak) = .ok true) := by
  obtain ⟨p, n', hgen, hn', rfl, hcol⟩ := treeProof_collects hB hdown hn hm hmk
  refine ⟨p, n', hgen, hn', fun hR hacc => ?_⟩
  have hval : m.leaf keccak (num p.key) = e.value := by
    rw [Contents.leaf, keyOf_num, hmk]
  rw [← hval, Contents.root]
  refine ((hcol hR).covers fun b hb hno => ?_).check
  rw [included, Bool.and_eq_false_iff, decide_eq_false_iff_not, decide_eq_false_iff_not] at hno
  rcases hno with hbelow | hskip
  · -- below the terminal
    refine siblingAt_below ?_ (fun q hq => ?_) (not_le.mp hbelow)
    · rw [hm.find_eq, hmk]
      exact Option.some_ne_none e
    · rw [num_div_top] at hq
      exact hm.leaf_eq ((Nat.div_eq_zero_iff.mp hq).resolve_left (by decide))
  · -- left out by a node on the path
    have hb' : b = 4 * (b / 4) + b % 4 := (Nat.div_add_mod b 4).symm
    rw [not_not] at hskip
    rw [hb'] at hskip ⊢
    rw [Nat.mul_add_mod, Nat.mod_mod] at hskip
    refine hacc (b / 4) ?_ (b % 4) (Nat.mod_lt b (by norm_num)) hskip
    unfold treeDepth at hb
    unfold nkeypieces
    omega

/-- `Get` of a tree that stands for these contents: it answers with them, without an error, and
where the cached roots below the root node are right its proof checks. -/
theorem treeGet_represents (hB : B.Serves keccak R pcs) (hdown : ∀ r, R (r + 1) → R r) {n : Node}
    {ts : Fin 16 → EntryTrie} {m : Contents}
    (hn : Represents keccak R B nkeypieces n (.branch ts)) (hm : Holds (.branch ts) m) (k : Key) :
    ∃ res n', SparseMerkleTree.get keccak pcs k n = .ok (res, n')
      ∧ Represents keccak R B nkeypieces n' (.branch ts)
      ∧ res.answer = answerOf (m k) ∧ res.err = none
      ∧ ((∀ q < nkeypieces, R q) → NoFalseDefault keccak (m.leaf keccak) (num k) → ∀ p,
          res.p = some p → p.check keccak res.v0 (m.root keccak) = .ok true) := by
  obtain ⟨n₁, hget, hn₁⟩ := get_represents hB le_rfl hn k
  rw [hm.find_eq k] at hget
  unfold SparseMerkleTree.get
  rcases hmk : m k with _ | e
  · rw [hmk] at hget
    simp only [hget, bind, Except.bind]
    refine ⟨_, n₁, rfl, hn₁, rfl, rfl, ?_⟩
    intro _ _ p hp
    cases hp
  · rw [hmk] at hget
    obtain ⟨pr, n₂, hgen, hn₂, hcheck⟩ := treeProof_represents hB hdown hn₁ hm hmk
    simp only [hget, hgen, bind, Except.bind, if_true]
    refine ⟨_, n₂, rfl, hn₂, rfl, rfl, ?_⟩
    intro hR hacc p hp
    obtain rfl : pr = p := by simpa using hp
    exact hcheck hR hacc

end GoPlasma.Smt
