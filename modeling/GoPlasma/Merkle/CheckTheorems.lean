import GoPlasma.Merkle.TreeTheorems

/-!
# What `CheckProof` takes

`CheckProof` climbs from the first word of a proof, each further word being the next sibling
(`checkProof_flatten`). `GenProof` gives the leaf and the siblings on its way to the root, one after
the other (`genProof_eq`). A sibling that is padding is empty and adds no word, so the proof of the
last of an odd number of leaves is one word short: `complete_iff`.

In the other direction, a proof that `CheckProof` takes starts at a node of the tree, and which one
it is follows from the number of its words: `checkProof_sound`.
-/

namespace GoPlasma.Merkle

open BinTree (climb climbPair pathPair sibling)

variable {keccak : Bytes → Hash} {l tree : List Bytes} {i : ℕ}

/-! ## The proof of a leaf -/

section
variable {leaf : ℕ → Bytes} {d : ℕ}

variable (keccak) in
/-- The siblings above leaf `i`, the lowest first. -/
def siblings (leaf : ℕ → Bytes) (h p k : ℕ) : List Bytes :=
  (List.range k).map fun j => BinTree.root (node keccak) leaf (h + j) (sibling (p / 2 ^ j))

theorem siblings_succ (leaf : ℕ → Bytes) (h p k : ℕ) :
    siblings keccak leaf h p (k + 1)
      = BinTree.root (node keccak) leaf h (sibling p)
        :: siblings keccak leaf (h + 1) (p / 2) k := by
  rw [siblings, siblings, List.range_succ_eq_map, List.map_cons, List.map_map]
  simp only [Nat.add_zero, pow_zero, Nat.div_one, List.cons.injEq, true_and]
  apply List.map_congr_left
  intro j _
  simp only [Function.comp, Nat.succ_eq_add_one]
  rw [pow_succ', ← Nat.div_div_eq_div_mul, Nat.add_assoc, Nat.add_comm 1 j]

@[simp] theorem length_siblings (leaf : ℕ → Bytes) (h p k : ℕ) :
    (siblings keccak leaf h p k).length = k := by
  simp [siblings]

theorem stringAt_siblings (leaf : ℕ → Bytes) {h p j k : ℕ} (hj : j < k) :
    stringAt (siblings keccak leaf h p k) j
      = BinTree.root (node keccak) leaf (h + j) (sibling (p / 2 ^ j)) := by
  simp [stringAt, siblings, hj]

theorem sibling_lt {p k : ℕ} (hp : p < 2 ^ (k + 1)) : sibling p < 2 ^ (k + 1) := by
  rw [sibling]
  rw [pow_succ] at hp ⊢
  split_ifs
  · omega
  · omega

/-- The loop of `GenProof` from a node of the tree on. -/
theorem IsTree.genProofLoop_eq (ht : IsTree keccak leaf d tree) {h k p fuel : ℕ} (hk : h + k = d)
    (hp : p < 2 ^ k) (hfuel : k ≤ fuel) (mkproof : Bytes) :
    genProofLoop tree fuel (2 ^ k + p) mkproof
      = .ok (mkproof ++ (siblings keccak leaf h p k).flatten) := by
  induction k generalizing h p fuel mkproof with
  | zero =>
    obtain rfl : p = 0 := by simpa using hp
    cases fuel with
    | zero => simp [genProofLoop, siblings]
    | succ fuel => simp [genProofLoop, siblings]
  | succ k ih =>
    obtain ⟨fuel, rfl⟩ : ∃ f, fuel = f + 1 := ⟨fuel - 1, by omega⟩
    have heven : 2 ^ (k + 1) % 2 = 0 := by rw [pow_succ]; omega
    have hhalf : (2 ^ (k + 1) + p) / 2 = 2 ^ k + p / 2 := by rw [pow_succ]; omega
    have hbig : 1 < 2 ^ (k + 1) + p := by
      have := Nat.one_lt_two_pow (n := k + 1) (by omega)
      omega
    have helem := elem_eq_ok.mpr (ht.node_eq hk (sibling_lt hp))
    rw [genProofLoop, if_pos hbig, BinTree.xor_one, BinTree.sibling_add heven, helem, hhalf]
    change genProofLoop tree fuel (2 ^ k + p / 2) _ = _
    rw [ih (h := h + 1) (by omega) (by rw [pow_succ] at hp; omega) (by omega), siblings_succ,
      List.flatten_cons, List.append_assoc]

/-- `GenProof` gives the leaf and its siblings. -/
theorem IsTree.genProof_eq (ht : IsTree keccak leaf d tree) (hi : i < 2 ^ d) :
    genProof tree i = .ok (.ok ⟨BinTree.root (node keccak) leaf d 0,
      (leaf i :: siblings keccak leaf 0 i d).flatten, i⟩) := by
  have hleaf := elem_eq_ok.mpr (ht.node_eq (h := 0) (Nat.zero_add d) hi)
  have hroot := elem_eq_ok.mpr (ht.node_eq (h := d) (k := 0) (p := 0) (by omega) (by simp))
  have hfuel : d ≤ 2 ^ d + i := Nat.lt_two_pow_self.le.trans (Nat.le_add_right _ _)
  have hloop := ht.genProofLoop_eq (Nat.zero_add d) hi hfuel (leaf i)
  rw [genProof, ht.half, if_neg (by omega), Nat.add_comm i, hleaf]
  change (genProofLoop tree (2 ^ d + i) (2 ^ d + i) (leaf i) >>= _) = _
  rw [hloop]
  change (elem tree 1 >>= _) = _
  rw [pow_zero, Nat.add_zero] at hroot
  rw [hroot, List.flatten_cons]
  rfl

theorem IsTree.merkleRoot_eq (ht : IsTree keccak leaf d tree) :
    merkleRoot tree = .ok (BinTree.root (node keccak) leaf d 0) :=
  elem_eq_ok.mpr (ht.node_eq (h := d) (k := 0) (p := 0) (by omega) (by simp))

end

/-! ## The climb of `CheckProof` -/

/-- Word `k` of a proof. -/
def word (mkproof : Bytes) (k : ℕ) : Bytes := Bytes.slice mkproof (k * 32) 32

theorem word_append_zero {a b : Bytes} (ha : a.length = 32) : word (a ++ b) 0 = a := by
  rw [word, Nat.zero_mul, Bytes.slice_append_left (by omega), ← ha, Bytes.slice_zero_self]

theorem word_append_succ {a b : Bytes} (ha : a.length = 32) (k : ℕ) :
    word (a ++ b) (k + 1) = word b k := by
  rw [word, word, show (k + 1) * 32 = a.length + k * 32 by omega, Bytes.slice_append_right]

variable (keccak) in
/-- The root that the first `n + 1` words of a proof lead to. -/
def rootOf (mkproof : Bytes) (i n : ℕ) : Bytes :=
  climb (node keccak) (fun k => word mkproof (k + 1)) i (word mkproof 0) n

theorem length_word {mkproof : Bytes} {k : ℕ} (h : 32 * (k + 1) ≤ mkproof.length) :
    (word mkproof k).length = 32 :=
  Bytes.length_slice (by omega)

/-- The loop of `CheckProof`. -/
theorem foldl_checkProofRound {mkproof : Bytes} {n : ℕ} (h : 32 * (n + 1) ≤ mkproof.length) :
    (List.range' 1 n).foldl (checkProofRound keccak mkproof) (word mkproof 0, i)
      = (rootOf keccak mkproof i n, i / 2 ^ n) := by
  induction n with
  | zero => simp [rootOf, climb]
  | succ n ih =>
    have hfit : Bytes.fit 32 (Bytes.slice mkproof ((1 + n) * 32) 32) = word mkproof (n + 1) := by
      rw [Nat.add_comm 1 n]
      exact Bytes.fit_of_length (length_word h)
    have hround : rootOf keccak mkproof i (n + 1)
        = if i / 2 ^ n % 2 > 0 then node keccak (word mkproof (n + 1)) (rootOf keccak mkproof i n)
          else node keccak (rootOf keccak mkproof i n) (word mkproof (n + 1)) := by
      rw [rootOf, climb, BinTree.testBit_eq_mod]
      rcases Nat.mod_two_eq_zero_or_one (i / 2 ^ n) with hb | hb
      · simp [hb, rootOf]
      · simp [hb, rootOf]
    rw [List.range'_1_concat, List.foldl_append, ih (by omega), List.foldl_cons, List.foldl_nil,
      checkProofRound, hfit, hround, pow_succ, Nat.div_div_eq_div_mul]
    rfl

/-- `CheckProof` of a string of words. -/
theorem checkProof_eq {root mkproof : Bytes} {n : ℕ} (h : mkproof.length = 32 * (n + 1)) :
    checkProof keccak root mkproof i
      = .ok (.ok (decide (root = rootOf keccak mkproof i n), rootOf keccak mkproof i n)) := by
  have hrounds : mkproof.length / 32 - 1 = n := by omega
  rw [checkProof, if_neg (by omega), window, if_pos (by omega), hrounds]
  change Except.ok (Except.ok (decide (root = ((List.range' 1 n).foldl
    (checkProofRound keccak mkproof) (word mkproof 0, i)).1), _)) = _
  rw [foldl_checkProofRound (by omega)]
  simp only [Nat.sub_zero, Except.ok.injEq, Prod.mk.injEq, true_and]
  exact congrArg Prod.fst (foldl_checkProofRound (by omega))

/-- A proof that is taken consists of words, and these lead to the root. -/
theorem checkProof_true {root mkproof r : Bytes}
    (h : checkProof keccak root mkproof i = .ok (.ok (true, r))) :
    ∃ n, mkproof.length = 32 * (n + 1) ∧ rootOf keccak mkproof i n = root := by
  have hmod : mkproof.length % 32 = 0 := by
    by_contra hne
    rw [checkProof, if_pos hne] at h
    cases h
  have hne : mkproof ≠ [] := checkProof_returns_iff.mp ⟨_, h⟩
  have hpos : 0 < mkproof.length := List.length_pos_iff.mpr hne
  have hlen : mkproof.length = 32 * (mkproof.length / 32 - 1 + 1) := by omega
  refine ⟨_, hlen, ?_⟩
  rw [checkProof_eq hlen] at h
  exact (of_decide_eq_true (Prod.mk.inj (Except.ok.inj (Except.ok.inj h))).1).symm

section
variable {w : Bytes} {ws : List Bytes} (hw : w.length = 32) (hws : ∀ x ∈ ws, x.length = 32)
include hw hws

omit hws in
theorem word_zero_flatten : word (w :: ws).flatten 0 = w := word_append_zero hw

theorem word_succ_flatten {k : ℕ} (hk : k < ws.length) :
    word (w :: ws).flatten (k + 1) = stringAt ws k := by
  rw [List.flatten_cons, word_append_succ hw]
  exact Bytes.slice_flatten hws (getElem?_eq_stringAt hk)

theorem rootOf_flatten {n : ℕ} (hn : n ≤ ws.length) :
    rootOf keccak (w :: ws).flatten i n = climb (node keccak) (stringAt ws) i w n := by
  rw [rootOf, word_zero_flatten hw]
  exact BinTree.climb_congr _ fun k hk => word_succ_flatten hw hws (by omega)

/-- `CheckProof` of words that are laid out one behind the other. -/
theorem checkProof_flatten (root : Bytes) :
    checkProof keccak root (w :: ws).flatten i
      = .ok (.ok (decide (root = climb (node keccak) (stringAt ws) i w ws.length),
        climb (node keccak) (stringAt ws) i w ws.length)) := by
  have hlen := Bytes.length_flatten (List.forall_mem_cons.mpr ⟨hw, hws⟩)
  rw [checkProof_eq hlen, rootOf_flatten hw hws le_rfl]

end

/-! ## The strings that are hashed -/

variable (keccak) in
/-- The strings that are hashed for the inner nodes of a tree of height `d`. -/
def treeStrings (leaf : ℕ → Bytes) (d : ℕ) : Set Bytes :=
  {b | ∃ h p, h < d ∧ p < 2 ^ (d - (h + 1)) ∧
    b = BinTree.root (node keccak) leaf h (2 * p) ++ BinTree.root (node keccak) leaf h (2 * p + 1)}

variable (keccak) in
/-- The strings that `CheckProof` hashes. -/
def proofStrings (mkproof : Bytes) (i : ℕ) : Set Bytes :=
  {b | ∃ k, k + 1 < mkproof.length / 32 ∧
    b = if i.testBit k then word mkproof (k + 1) ++ rootOf keccak mkproof i k
      else rootOf keccak mkproof i k ++ word mkproof (k + 1)}

/-- The string of the pair above leaf `i` at height `h`. -/
theorem pathPair_mem {leaf : ℕ → Bytes} {h d : ℕ} (hi : i < 2 ^ d) (hd : h < d) :
    (pathPair (node keccak) leaf i h).1 ++ (pathPair (node keccak) leaf i h).2
      ∈ treeStrings keccak leaf d := by
  refine ⟨h, i / 2 ^ (h + 1), hd, ?_, rfl⟩
  rw [Nat.div_lt_iff_lt_mul (by positivity), ← pow_add]
  exact hi.trans_eq (by congr 1; omega)

theorem length_root {leaf : ℕ → Bytes} (h p : ℕ) :
    (BinTree.root (node keccak) leaf (h + 1) p).length = 32 := length_node _ _

theorem length_rootOf {mkproof : Bytes} {n : ℕ} (h : 32 * (n + 1) ≤ mkproof.length) :
    (rootOf keccak mkproof i n).length = 32 := by
  cases n with
  | zero => exact length_word (by omega)
  | succ n =>
    rw [rootOf, BinTree.climb_succ]
    exact length_node _ _

theorem node_inj {H : Set Bytes} (hinj : Set.InjOn keccak H) {a b a' b' : Bytes}
    (hab : a ++ b ∈ H) (hab' : a' ++ b' ∈ H) (h : node keccak a b = node keccak a' b') :
    a ++ b = a' ++ b' := by
  simp only [node, computehash, List.flatten_cons, List.flatten_nil, List.append_nil] at h
  exact hinj hab hab' (Subtype.ext h)

/-! ## Completeness -/

variable (keccak) in
/-- `GenProof` gives a proof that starts with leaf `i`, and `CheckProof` takes it. -/
def Complete (l : List Bytes) (i : ℕ) : Prop :=
  ∃ tree root mkproof r, Merkelized keccak l tree ∧ merkleRoot tree = .ok root ∧
    genProof tree i = .ok (.ok ⟨root, mkproof, i⟩) ∧
    checkProof keccak root mkproof i = .ok (.ok (true, r)) ∧ l[i]? = some (mkproof.take 32)

variable (keccak) in
/-- The strings that are hashed to build the tree, and to check the proof of leaf `i`. -/
def completeStrings (l : List Bytes) (i : ℕ) : Set Bytes :=
  {b | b ∈ treeStrings keccak (stringAt l) (height l) ∨
    ∃ tree g, Merkelized keccak l tree ∧ genProof tree i = .ok (.ok g) ∧
      b ∈ proofStrings keccak g.mkproof i}

/-- The proof of a leaf whose sibling is not padding. -/
theorem climb_siblings (leaf : ℕ → Bytes) {d : ℕ} (hi : i < 2 ^ d) :
    climb (node keccak) (stringAt (siblings keccak leaf 0 i d)) i (leaf i) d
      = BinTree.root (node keccak) leaf d 0 := by
  rw [BinTree.climb_eq_root (node keccak) leaf, Nat.div_eq_of_lt hi]
  intro k hk
  rw [stringAt_siblings leaf hk, Nat.zero_add]

section
variable (h32 : ∀ x ∈ l, x.length = 32)
include h32

theorem length_stringAt {q : ℕ} (hq : q < l.length) : (stringAt l q).length = 32 := by
  rw [stringAt, List.getElem?_eq_getElem hq]
  exact h32 _ (List.getElem_mem hq)

/-- All siblings of a leaf are words, if the lowest is not padding. -/
theorem length_of_mem_siblings {d : ℕ} (hsib : 0 < d → sibling i < l.length) {x : Bytes}
    (hx : x ∈ siblings keccak (stringAt l) 0 i d) : x.length = 32 := by
  obtain ⟨j, hj, rfl⟩ := List.mem_map.mp hx
  rw [List.mem_range] at hj
  cases j with
  | zero =>
    rw [pow_zero, Nat.div_one]
    exact length_stringAt h32 (hsib (by omega))
  | succ j => exact length_root _ _

theorem complete_of_sibling (hi : i < l.length) (hsib : 0 < height l → sibling i < l.length) :
    Complete keccak l i := by
  have hne : l ≠ [] := List.ne_nil_of_length_pos (Nat.zero_lt_of_lt hi)
  obtain ⟨tree, htree⟩ : ∃ tree, Merkelized keccak l tree := exists_merkelized_iff.mpr hne
  have ht := htree.isTree
  have hid : i < 2 ^ height l := hi.trans_le (length_le_height l)
  have hw := length_stringAt h32 hi
  have hws : ∀ x ∈ siblings keccak (stringAt l) 0 i (height l), x.length = 32 :=
    fun x hx => length_of_mem_siblings h32 hsib hx
  have hcheck : checkProof keccak (BinTree.root (node keccak) (stringAt l) (height l) 0)
      (stringAt l i :: siblings keccak (stringAt l) 0 i (height l)).flatten i = _ :=
    checkProof_flatten hw hws _
  rw [length_siblings, climb_siblings _ hid, decide_eq_true rfl] at hcheck
  refine ⟨tree, _, _, _, htree, ht.merkleRoot_eq, ht.genProof_eq hid, hcheck, ?_⟩
  rw [getElem?_eq_stringAt hi, List.flatten_cons, List.take_left' hw]

end

/-! ### The last of an odd number of leaves

Its proof has the leaf and the siblings from height 1 on, so the check combines every node with the
sibling of the node above. -/

/-- A node and a sibling that are combined in two places of the way give the node in both, and the
sibling as well if they are combined in another order. -/
theorem combined_eq {x y s : Bytes} {b c : Bool} (hx : x.length = 32) (hy : y.length = 32)
    (hs : s.length = 32)
    (h : (if b then s ++ y else y ++ s) = if c then s ++ x else x ++ s) :
    y = x ∧ (b ≠ c → s = x) := by
  cases b <;> cases c
  · have := List.append_inj h (by rw [hy, hx])
    exact ⟨this.1, fun hne => absurd rfl hne⟩
  · have := List.append_inj h (by rw [hy, hs])
    exact ⟨this.1.trans this.2, fun _ => this.2⟩
  · have := List.append_inj h (by rw [hs, hx])
    exact ⟨this.2.trans this.1, fun _ => this.1⟩
  · have := List.append_inj h rfl
    exact ⟨this.2, fun hne => absurd rfl hne⟩

/-- The lowest bit of an even number. -/
theorem exists_lowest_bit (heven : i % 2 = 0) (hpos : 0 < i) :
    ∃ e o, o % 2 = 1 ∧ o * 2 ^ (e + 1) = i := by
  obtain ⟨e, o, ho, hieq⟩ := Nat.exists_eq_two_pow_mul_odd hpos.ne'
  rw [Nat.odd_iff] at ho
  rcases e with _ | e
  · rw [pow_zero, Nat.one_mul] at hieq
    omega
  · exact ⟨e, o, ho, by rw [hieq, Nat.mul_comm]⟩

section
variable {leaf : ℕ → Bytes} {d : ℕ} {H : Set Bytes} (hinj : Set.InjOn keccak H)
include hinj

/-- The leftmost pairs below two equal subtrees are hashed from one string. -/
theorem left_leaves_eq (hH : treeStrings keccak leaf d ⊆ H) {h p q : ℕ} (hd : h < d)
    (hp : p < 2 ^ (d - (h + 1))) (hq : q < 2 ^ (d - (h + 1)))
    (heq : BinTree.root (node keccak) leaf (h + 1) p = BinTree.root (node keccak) leaf (h + 1) q) :
    leaf (p * 2 ^ (h + 1)) ++ leaf (p * 2 ^ (h + 1) + 1)
      = leaf (q * 2 ^ (h + 1)) ++ leaf (q * 2 ^ (h + 1) + 1) := by
  induction h generalizing p q with
  | zero =>
    have hstring := node_inj hinj (hH ⟨0, p, hd, hp, rfl⟩) (hH ⟨0, q, hd, hq, rfl⟩) heq
    simpa [Nat.mul_comm] using hstring
  | succ h ih =>
    have hstring := node_inj hinj (hH ⟨h + 1, p, hd, hp, rfl⟩) (hH ⟨h + 1, q, hd, hq, rfl⟩) heq
    have hleft := (List.append_inj hstring (by rw [length_root, length_root])).1
    have hpow : 2 ^ (d - (h + 1)) = 2 * 2 ^ (d - (h + 1 + 1)) := by
      rw [← pow_succ']
      congr 1
      omega
    have := ih (by omega) (by omega) (by omega) hleft
    rwa [show 2 * p * 2 ^ (h + 1) = p * 2 ^ (h + 1 + 1) by ring,
      show 2 * q * 2 ^ (h + 1) = q * 2 ^ (h + 1 + 1) by ring] at this

/-- One level of the check of the short proof, from the level above. -/
theorem short_step (hH : treeStrings keccak leaf d ⊆ H) {sib : ℕ → Bytes}
    (hsib : ∀ k, k + 1 < d →
      sib k = BinTree.root (node keccak) leaf (k + 1) (sibling (i / 2 ^ (k + 1))))
    (hi : i < 2 ^ d) (hleaf : (leaf i).length = 32) {j : ℕ} (hj : j + 1 < d)
    (hmem : (if i.testBit j then sib j ++ climb (node keccak) sib i (leaf i) j
      else climb (node keccak) sib i (leaf i) j ++ sib j) ∈ H)
    (heq : climb (node keccak) sib i (leaf i) (j + 1)
      = BinTree.root (node keccak) leaf (j + 2) (i / 2 ^ (j + 2))) :
    climb (node keccak) sib i (leaf i) j
        = BinTree.root (node keccak) leaf (j + 1) (i / 2 ^ (j + 1)) ∧
      (i.testBit j ≠ i.testBit (j + 1) →
        sib j = BinTree.root (node keccak) leaf (j + 1) (i / 2 ^ (j + 1))) := by
  have hpath : (if i.testBit (j + 1) then
        sib j ++ BinTree.root (node keccak) leaf (j + 1) (i / 2 ^ (j + 1))
      else BinTree.root (node keccak) leaf (j + 1) (i / 2 ^ (j + 1)) ++ sib j) ∈ H := by
    have hpair : _ ∈ treeStrings keccak leaf d := pathPair_mem hi hj
    rw [BinTree.pathPair_eq, ← hsib j hj] at hpair
    split_ifs at hpair ⊢
    · exact hH hpair
    · exact hH hpair
  -- both sides are hashed with the same sibling
  have hhash : keccak (if i.testBit j then sib j ++ climb (node keccak) sib i (leaf i) j
        else climb (node keccak) sib i (leaf i) j ++ sib j)
      = keccak (if i.testBit (j + 1) then
          sib j ++ BinTree.root (node keccak) leaf (j + 1) (i / 2 ^ (j + 1))
        else BinTree.root (node keccak) leaf (j + 1) (i / 2 ^ (j + 1)) ++ sib j) := by
    rw [climb, BinTree.root_parent, ← hsib j hj] at heq
    apply Subtype.ext
    simpa [node, computehash, apply_ite keccak, apply_ite Subtype.val] using heq
  refine combined_eq (length_root _ _) ?_ ?_ (hinj hmem hpath hhash)
  · cases j with
    | zero => exact hleaf
    | succ j =>
      rw [BinTree.climb_succ]
      exact length_node _ _
  · rw [hsib j hj]
    exact length_root _ _

/-- If the check of the short proof arrives at the root, it has been one level below the way of the
leaf all the time. -/
theorem short_climb_eq (hH : treeStrings keccak leaf d ⊆ H) {sib : ℕ → Bytes}
    (hsib : ∀ k, k + 1 < d →
      sib k = BinTree.root (node keccak) leaf (k + 1) (sibling (i / 2 ^ (k + 1))))
    (hi : i < 2 ^ d) (hleaf : (leaf i).length = 32)
    (hmem : ∀ j, j + 1 < d → (if i.testBit j then sib j ++ climb (node keccak) sib i (leaf i) j
      else climb (node keccak) sib i (leaf i) j ++ sib j) ∈ H)
    (htop : climb (node keccak) sib i (leaf i) (d - 1) = BinTree.root (node keccak) leaf d 0)
    {j m : ℕ} (hjm : j + m + 1 = d) :
    climb (node keccak) sib i (leaf i) j
      = BinTree.root (node keccak) leaf (j + 1) (i / 2 ^ (j + 1)) := by
  induction m generalizing j with
  | zero =>
    obtain rfl : d = j + 1 := by omega
    rw [Nat.div_eq_of_lt hi]
    exact htop
  | succ m ih =>
    have habove := ih (j := j + 1) (by omega)
    exact (short_step hinj hH hsib hi hleaf (by omega) (hmem j (by omega)) habove).1

/-- A subtree that begins with a pair with padding is not its left sibling. -/
theorem root_padded_ne (hH : treeStrings keccak leaf d ⊆ H) (hi : i < 2 ^ d)
    (hleaf : ∀ q ≤ i, (leaf q).length = 32) (hpad : leaf (i + 1) = []) {e o : ℕ} (hed : e + 1 < d)
    (hieq : o * 2 ^ (e + 1) = i) (ho : 0 < o) :
    BinTree.root (node keccak) leaf (e + 1) (o - 1)
      ≠ BinTree.root (node keccak) leaf (e + 1) o := by
  intro heq
  have hwidth : o < 2 ^ (d - (e + 1)) := by
    rw [← Nat.mul_lt_mul_right (Nat.two_pow_pos (e + 1)), ← pow_add, hieq]
    exact hi.trans_eq (by congr 1; omega)
  have hleft := left_leaves_eq hinj hH (by omega) (by omega) hwidth heq
  have hless : (o - 1) * 2 ^ (e + 1) + 1 ≤ i := by
    have hone : 1 ≤ 2 ^ (e + 1) := Nat.one_le_two_pow
    have hle : 2 ^ (e + 1) ≤ o * 2 ^ (e + 1) := Nat.le_mul_of_pos_left _ ho
    rw [Nat.sub_mul, Nat.one_mul]
    omega
  have hlen := congrArg List.length hleft
  rw [hieq, hpad, List.length_append, List.length_append, hleaf i le_rfl, hleaf _ hless,
    hleaf _ (by omega)] at hlen
  cases hlen

/-- The check of the short proof does not arrive at the root: at the lowest bit of `i` that is set,
the node on the way would have to be its own sibling, and of these two subtrees only one begins with
a pair with padding. -/
theorem short_climb_ne (hH : treeStrings keccak leaf d ⊆ H) {sib : ℕ → Bytes}
    (hsib : ∀ k, k + 1 < d →
      sib k = BinTree.root (node keccak) leaf (k + 1) (sibling (i / 2 ^ (k + 1))))
    (hi : i < 2 ^ d) (heven : i % 2 = 0) (hpos : 0 < i) (hleaf : ∀ q ≤ i, (leaf q).length = 32)
    (hpad : leaf (i + 1) = [])
    (hmem : ∀ j, j + 1 < d → (if i.testBit j then sib j ++ climb (node keccak) sib i (leaf i) j
      else climb (node keccak) sib i (leaf i) j ++ sib j) ∈ H) :
    climb (node keccak) sib i (leaf i) (d - 1) ≠ BinTree.root (node keccak) leaf d 0 := by
  intro htop
  obtain ⟨e, o, ho, hieq⟩ := exists_lowest_bit heven hpos
  have hdiv : i / 2 ^ (e + 1) = o := by rw [← hieq, Nat.mul_div_cancel _ (Nat.two_pow_pos _)]
  have hed : e + 1 < d := by
    have hle : 2 ^ (e + 1) ≤ o * 2 ^ (e + 1) := Nat.le_mul_of_pos_left _ (by omega)
    exact (Nat.pow_lt_pow_iff_right (by omega : 1 < 2)).mp (by omega)
  have habove := short_climb_eq hinj hH hsib hi (hleaf i le_rfl) hmem htop
    (j := e + 1) (m := d - (e + 2)) (by omega)
  -- below the lowest bit there is a 0
  have hbits : i.testBit e ≠ i.testBit (e + 1) := by
    have hlow : i / 2 ^ e % 2 = 0 := by
      rw [← hieq, pow_succ', ← Nat.mul_assoc, Nat.mul_div_cancel _ (Nat.two_pow_pos _)]
      omega
    rw [BinTree.testBit_eq_mod, BinTree.testBit_eq_mod, hlow, hdiv, ho]
    decide
  have hself := (short_step hinj hH hsib hi (hleaf i le_rfl) hed (hmem e hed) habove).2 hbits
  rw [hsib e hed, hdiv, sibling, if_pos ho] at hself
  exact root_padded_ne hinj hH hi hleaf hpad hed hieq (by omega) hself

end

/-- The proof of the last of an odd number of leaves. -/
theorem short_proof {d : ℕ} (hodd : l.length % 2 = 1) (hlast : i + 1 = l.length) :
    (stringAt l i :: siblings keccak (stringAt l) 0 i (d + 1)).flatten
      = (stringAt l i :: siblings keccak (stringAt l) 1 (i / 2) d).flatten := by
  have hsib : sibling i = l.length := by rw [sibling, if_neg (by omega), hlast]
  rw [siblings_succ, BinTree.root_zero, hsib, stringAt_of_length_le le_rfl, List.flatten_cons,
    List.flatten_cons, List.nil_append, Nat.zero_add, List.flatten_cons]

theorem not_complete (h32 : ∀ x ∈ l, x.length = 32)
    (hinj : Set.InjOn keccak (completeStrings keccak l i)) (hodd : l.length % 2 = 1)
    (hone : l.length ≠ 1) (hlast : i + 1 = l.length) : ¬ Complete keccak l i := by
  rintro ⟨tree, root, mkproof, r, htree, -, hgen, hcheck, -⟩
  have hid : i < 2 ^ height l := by
    have := length_le_height l
    omega
  obtain ⟨d, hd⟩ : ∃ d, height l = d + 1 :=
    ⟨height l - 1, by have := Nat.clog_pos (b := 2) (n := l.length) (by omega) (by omega)
                      rw [height]; omega⟩
  have hws : ∀ x ∈ siblings keccak (stringAt l) 1 (i / 2) d, x.length = 32 := by
    intro x hx
    obtain ⟨j, -, rfl⟩ := List.mem_map.mp hx
    rw [Nat.add_comm 1 j]
    exact length_root _ _
  have hw : (stringAt l i).length = 32 := length_stringAt h32 (by omega)
  have hgen' := hgen
  rw [htree.isTree.genProof_eq hid, hd, short_proof hodd hlast] at hgen'
  obtain ⟨rfl, rfl, -⟩ := Generated.mk.inj (Except.ok.inj (Except.ok.inj hgen'))
  have hlen := Bytes.length_flatten (List.forall_mem_cons.mpr ⟨hw, hws⟩)
  rw [List.length_cons, length_siblings] at hlen
  -- what the check hashes
  have hmem : ∀ j, j + 1 < d + 1 →
      (if i.testBit j then stringAt (siblings keccak (stringAt l) 1 (i / 2) d) j
        ++ climb (node keccak) (stringAt (siblings keccak (stringAt l) 1 (i / 2) d)) i
          (stringAt l i) j
      else climb (node keccak) (stringAt (siblings keccak (stringAt l) 1 (i / 2) d)) i
          (stringAt l i) j
        ++ stringAt (siblings keccak (stringAt l) 1 (i / 2) d) j) ∈ completeStrings keccak l i := by
    intro j hj
    refine .inr ⟨tree, _, htree, hgen, j, ?_, ?_⟩
    · rw [hlen]
      omega
    · rw [word_succ_flatten hw hws (by rw [length_siblings]; omega),
        rootOf_flatten hw hws (by rw [length_siblings]; omega)]
  have hsib : ∀ k, k + 1 < d + 1 → stringAt (siblings keccak (stringAt l) 1 (i / 2) d) k
      = BinTree.root (node keccak) (stringAt l) (k + 1) (sibling (i / 2 ^ (k + 1))) := by
    intro k hk
    rw [stringAt_siblings _ (by omega), Nat.add_comm 1 k, pow_succ', Nat.div_div_eq_div_mul]
  rw [checkProof_flatten hw hws, length_siblings] at hcheck
  have heq := of_decide_eq_true (Prod.mk.inj (Except.ok.inj (Except.ok.inj hcheck))).1
  refine short_climb_ne hinj (fun b hb => .inl (hd ▸ hb)) hsib (hd ▸ hid) (by omega) (by omega) ?_
    (stringAt_of_length_le (by omega)) hmem heq.symm
  intro q hq
  exact length_stringAt h32 (by omega)

/-- Exactly the last of an odd number of leaves has no proof that is taken, unless it is the only
one. -/
theorem complete_iff {keccak : Bytes → Hash} {l : List Bytes} {i : ℕ}
    (h32 : ∀ x ∈ l, x.length = 32) (hi : i < l.length)
    (hinj : Set.InjOn keccak (completeStrings keccak l i)) :
    Complete keccak l i ↔ l.length % 2 = 0 ∨ l.length = 1 ∨ i + 1 ≠ l.length := by
  constructor
  · intro hc
    by_contra hnot
    exact not_complete h32 hinj (by omega) (by omega) (by omega) hc
  · intro hcond
    apply complete_of_sibling h32 hi
    intro hheight
    have hone : l.length ≠ 1 := by
      intro h
      rw [height, h, Nat.clog_one_right] at hheight
      omega
    rw [sibling]
    split_ifs
    · omega
    · omega

/-- A word that ends with a number. -/
def wordOf (n : ℕ) : Bytes := Bytes.zeros 31 ++ [UInt8.ofNat n]

/-- A hash that has no collisions on the few strings below. -/
def weightHash (b : Bytes) : Hash := ⟨wordOf (b.foldl (fun a c => a * 3 + c.toNat) 1), rfl⟩

theorem complete_iff_three : Complete weightHash [wordOf 1, wordOf 2, wordOf 5] 0 := by
  have hinj : Set.InjOn weightHash
      {x | x ∈ [wordOf 1 ++ wordOf 2, wordOf 5, node weightHash (wordOf 1) (wordOf 2)
        ++ node weightHash (wordOf 5) []]} :=
    fun x hx y hy h => List.inj_on_of_nodup_map (by decide +kernel) hx hy h
  refine (complete_iff (by decide) (by decide) (hinj.mono ?_)).mpr (by decide)
  have hheight : height [wordOf 1, wordOf 2, wordOf 5] = 2 := by decide
  rintro b (⟨h, p, hh, hp, rfl⟩ | ⟨tree, g, htree, hgen, k, hk, rfl⟩)
  · rw [hheight] at hh hp
    interval_cases h
    · interval_cases p
      · decide +kernel
      · decide +kernel
    · interval_cases p
      decide +kernel
  · rw [htree.isTree.genProof_eq (by rw [hheight]; decide), hheight] at hgen
    obtain rfl := Except.ok.inj (Except.ok.inj hgen)
    have hlen : k + 1 < 3 := hk.trans_eq (by decide +kernel)
    obtain rfl | rfl : k = 0 ∨ k = 1 := by omega
    · decide +kernel
    · decide +kernel

/-- The proof of the last of three leaves has two words, and the check rejects it. -/
theorem not_complete_three : ∃ tree root mkproof,
    merkelize weightHash 6 [wordOf 1, wordOf 2, wordOf 5] = .ok tree ∧
    merkleRoot tree = .ok root ∧ genProof tree 2 = .ok (.ok ⟨root, mkproof, 2⟩) ∧
    mkproof.length = 64 ∧
    (returned (checkProof weightHash root mkproof 2)).map Prod.fst = some false :=
  ⟨_, _, _, rfl, rfl, rfl, by decide +kernel, by decide +kernel⟩

/-! ## Soundness -/

section
variable {leaf : ℕ → Bytes} {d n : ℕ} {mkproof : Bytes}

/-- A climb along some words of a proof that arrives at the root of a tree of words starts at a leaf
of it. -/
theorem climb_sound {H : Set Bytes} (hinj : Set.InjOn keccak H) (hi : i < 2 ^ d) {v : Bytes}
    {sib : ℕ → Bytes} (hleaf : ∀ p < 2 ^ d, (leaf p).length = 32) (hv : v.length = 32)
    (hsib : ∀ k < d, (sib k).length = 32) (hH : treeStrings keccak leaf d ⊆ H)
    (hmem : ∀ k < d, (climbPair (node keccak) sib i v k).1 ++ (climbPair (node keccak) sib i v k).2
      ∈ H)
    (h : climb (node keccak) sib i v d = BinTree.root (node keccak) leaf d 0) : v = leaf i := by
  rw [← Nat.div_eq_of_lt hi] at h
  refine BinTree.climb_inj_of_path (node keccak) ?_ h
  intro k hk heq
  have hstring := node_inj hinj (hmem k hk) (hH (pathPair_mem hi hk)) heq
  -- both halves are words
  have hclimb : (climb (node keccak) sib i v k).length = 32 := by
    cases k with
    | zero => exact hv
    | succ k =>
      rw [BinTree.climb_succ]
      exact length_node _ _
  have hfst : (climbPair (node keccak) sib i v k).1.length = 32 := by
    rw [climbPair]
    split_ifs
    · exact hsib k hk
    · exact hclimb
  have hroot : (pathPair (node keccak) leaf i k).1.length = 32 := by
    cases k with
    | zero =>
      apply hleaf
      rw [Nat.zero_add, pow_one]
      omega
    | succ k => exact length_root _ _
  obtain ⟨h1, h2⟩ := List.append_inj hstring (hfst.trans hroot.symm)
  exact Prod.ext h1 h2

theorem climbPair_mem {k : ℕ} (hlen : mkproof.length = 32 * (n + 1)) (hk : k < n) :
    (climbPair (node keccak) (fun j => word mkproof (j + 1)) i (word mkproof 0) k).1
      ++ (climbPair (node keccak) (fun j => word mkproof (j + 1)) i (word mkproof 0) k).2
      ∈ proofStrings keccak mkproof i := by
  refine ⟨k, by omega, ?_⟩
  rw [climbPair]
  split_ifs
  · rfl
  · rfl

section
variable (hinj : Set.InjOn keccak (treeStrings keccak leaf d ∪ proofStrings keccak mkproof i))
  (hleaf : ∀ p < 2 ^ d, (leaf p).length = 32) (hlen : mkproof.length = 32 * (n + 1))
  (h : rootOf keccak mkproof i n = BinTree.root (node keccak) leaf d 0)
include hinj hleaf hlen h

/-- A proof with too few words starts at an inner node. -/
theorem rootOf_sound_of_le (hn : n ≤ d) :
    word mkproof 0 = BinTree.root (node keccak) leaf (d - n) (i % 2 ^ n) := by
  have hroot : BinTree.root (node keccak) leaf d 0
      = BinTree.root (node keccak) (BinTree.root (node keccak) leaf (d - n)) n 0 := by
    rw [← BinTree.root_add, Nat.sub_add_cancel hn]
  rw [hroot, rootOf, ← BinTree.climb_mod (node keccak) _ i _ le_rfl] at h
  refine climb_sound hinj (Nat.mod_lt _ (by positivity)) ?_ (length_word (by omega)) ?_ ?_ ?_ h
  · intro p hp
    rcases Nat.eq_or_lt_of_le hn with rfl | hlt
    · rw [Nat.sub_self]
      exact hleaf p hp
    · rw [← Nat.succ_pred_eq_of_pos (Nat.sub_pos_of_lt hlt)]
      exact length_root _ _
  · intro k hk
    exact length_word (by omega)
  · rintro b ⟨h', p, hh, hp, rfl⟩
    refine .inl ⟨d - n + h', p, by omega, ?_, ?_⟩
    · rwa [show d - (d - n + h' + 1) = n - (h' + 1) by omega]
    · rw [← BinTree.root_add, ← BinTree.root_add]
  · intro k hk
    rw [BinTree.climbPair_mod (node keccak) _ _ _ hk]
    exact .inr (climbPair_mem hlen hk)

/-- A proof with too many words arrives at a leaf after the first of them. -/
theorem rootOf_sound_of_ge (hn : d ≤ n) :
    rootOf keccak mkproof i (n - d) = leaf (i / 2 ^ (n - d) % 2 ^ d) := by
  rw [rootOf, ← Nat.sub_add_cancel hn, BinTree.climb_add,
    ← BinTree.climb_mod (node keccak) _ _ _ le_rfl] at h
  refine climb_sound hinj (Nat.mod_lt _ (by positivity)) hleaf (length_rootOf (by omega)) ?_
    (fun b hb => .inl hb) ?_ h
  · intro k hk
    exact length_word (by omega)
  · intro k hk
    have hadd := BinTree.climbPair_add (node keccak) (fun j => word mkproof (j + 1)) i
      (word mkproof 0) (n - d) k
    rw [BinTree.climbPair_mod (node keccak) _ _ _ hk, rootOf, hadd]
    exact .inr (climbPair_mem hlen (by omega))

end

end

theorem height_of_length {d : ℕ} (hl : l.length = 2 ^ d) : height l = d := by
  rw [height, hl, Nat.clog_pow _ _ (by omega)]

/-- The first words of a proof. -/
theorem rootOf_take (mkproof : Bytes) (m : ℕ) :
    rootOf keccak (mkproof.take (32 * (m + 1))) i m = rootOf keccak mkproof i m := by
  have hword : ∀ k ≤ m, word (mkproof.take (32 * (m + 1))) k = word mkproof k := by
    intro k hk
    rw [word, word, Bytes.slice, Bytes.slice, List.drop_take, List.take_take,
      Nat.min_eq_left (by omega)]
  rw [rootOf, rootOf, hword 0 (by omega)]
  exact BinTree.climb_congr _ fun k hk => hword (k + 1) (by omega)

/-- What a proof that is taken says about the tree. With `d + 1` words it starts at the leaf that
the low `d` bits of the index name; with fewer words it starts at an inner node, and with more the
surplus words lead up to a leaf. -/
theorem checkProof_sound {keccak : Bytes → Hash} {l tree : List Bytes} {root mkproof r : Bytes}
    {d i : ℕ} (hl : l.length = 2 ^ d) (h32 : ∀ x ∈ l, x.length = 32)
    (htree : Merkelized keccak l tree) (hroot : merkleRoot tree = .ok root)
    (hinj : Set.InjOn keccak
      (treeStrings keccak (stringAt l) d ∪ proofStrings keccak mkproof i))
    (h : checkProof keccak root mkproof i = .ok (.ok (true, r))) :
    ∃ n, mkproof.length = 32 * (n + 1) ∧
      (n ≤ d → tree[2 ^ n + i % 2 ^ n]? = some (mkproof.take 32)) ∧
      (d ≤ n → ∃ b leaf, l[i / 2 ^ (n - d) % 2 ^ d]? = some leaf ∧
        checkProof keccak root (mkproof.take (32 * (n - d + 1))) i = .ok (.ok (b, leaf))) ∧
      (n = d → i < 2 ^ d → l[i]? = some (mkproof.take 32)) := by
  have ht : IsTree keccak (stringAt l) d tree := height_of_length hl ▸ htree.isTree
  have hleaf : ∀ p < 2 ^ d, (stringAt l p).length = 32 :=
    fun p hp => length_stringAt h32 (hl ▸ hp)
  obtain ⟨n, hlen, hclimb⟩ := checkProof_true h
  obtain rfl := Except.ok.inj (ht.merkleRoot_eq.symm.trans hroot)
  have hfirst : word mkproof 0 = mkproof.take 32 := by rw [word, Bytes.slice, Nat.zero_mul]; rfl
  have hshort : n ≤ d → tree[2 ^ n + i % 2 ^ n]? = some (mkproof.take 32) := by
    intro hn
    rw [ht.node_eq (Nat.sub_add_cancel hn) (Nat.mod_lt _ (by positivity)), ← hfirst,
      rootOf_sound_of_le hinj hleaf hlen hclimb hn]
  refine ⟨n, hlen, hshort, ?_, ?_⟩
  · intro hn
    have hlt : i / 2 ^ (n - d) % 2 ^ d < l.length := by
      rw [hl]
      exact Nat.mod_lt _ (by positivity)
    -- the check of the surplus words alone ends at the leaf
    have hcut : (mkproof.take (32 * (n - d + 1))).length = 32 * (n - d + 1) := by
      rw [List.length_take]
      omega
    have hsurplus : checkProof keccak (BinTree.root (node keccak) (stringAt l) d 0)
        (mkproof.take (32 * (n - d + 1))) i = _ := checkProof_eq hcut
    rw [rootOf_take, rootOf_sound_of_ge hinj hleaf hlen hclimb hn] at hsurplus
    exact ⟨_, _, getElem?_eq_stringAt hlt, hsurplus⟩
  · rintro rfl hi
    have hnode := hshort le_rfl
    rw [Nat.mod_eq_of_lt hi, ht.node_eq (h := 0) (Nat.zero_add n) hi] at hnode
    rw [getElem?_eq_stringAt (hl ▸ hi)]
    exact hnode

theorem eq_of_mem_treeStrings_two {b : Bytes}
    (hb : b ∈ treeStrings weightHash (stringAt [wordOf 1, wordOf 2]) 1) :
    b = wordOf 1 ++ wordOf 2 := by
  obtain ⟨h, p, hh, hp, rfl⟩ := hb
  obtain rfl : h = 0 := by omega
  obtain rfl : p = 0 := by simpa using hp
  decide +kernel

/-- The proof of the second of two leaves. -/
theorem checkProof_sound_two : ∃ tree root r,
    Merkelized weightHash [wordOf 1, wordOf 2] tree ∧ merkleRoot tree = .ok root ∧
    checkProof weightHash root (wordOf 2 ++ wordOf 1) 1 = .ok (.ok (true, r)) ∧
    ∃ n, (wordOf 2 ++ wordOf 1).length = 32 * (n + 1) ∧
      (n ≤ 1 → tree[2 ^ n + 1 % 2 ^ n]? = some (wordOf 2)) := by
  have htree : Merkelized weightHash [wordOf 1, wordOf 2]
      [computehash weightHash [node weightHash (wordOf 1) (wordOf 2)],
        node weightHash (wordOf 1) (wordOf 2), wordOf 1, wordOf 2] := ⟨4, by decide +kernel⟩
  have hcheck : checkProof weightHash (node weightHash (wordOf 1) (wordOf 2))
      (wordOf 2 ++ wordOf 1) 1 = .ok (.ok (true, node weightHash (wordOf 1) (wordOf 2))) := by
    decide +kernel
  refine ⟨_, _, _, htree, rfl, hcheck, ?_⟩
  -- the check hashes the one string that was hashed for the tree
  have hone : ∀ b ∈ treeStrings weightHash (stringAt [wordOf 1, wordOf 2]) 1
      ∪ proofStrings weightHash (wordOf 2 ++ wordOf 1) 1, b = wordOf 1 ++ wordOf 2 := by
    rintro b (hb | ⟨k, hk, rfl⟩)
    · exact eq_of_mem_treeStrings_two hb
    · have hlen : k + 1 < 2 := hk.trans_eq (by decide +kernel)
      obtain rfl : k = 0 := by omega
      decide +kernel
  obtain ⟨n, hlen, hshort, -⟩ := checkProof_sound (d := 1) rfl (by decide) htree rfl
    (fun b hb c hc _ => (hone b hb).trans (hone c hc).symm) hcheck
  exact ⟨n, hlen, hshort⟩

/-- The root alone is taken as a proof, and the proof of the first of two leaves is taken at
index 2. -/
theorem not_checkProof_sound : ∃ tree root,
    Merkelized weightHash [wordOf 1, wordOf 2] tree ∧ merkleRoot tree = .ok root ∧
    Set.InjOn weightHash (treeStrings weightHash (stringAt [wordOf 1, wordOf 2]) 1
      ∪ proofStrings weightHash root 0) ∧
    (returned (checkProof weightHash root root 0)).map Prod.fst = some true ∧
    [wordOf 1, wordOf 2][0]? ≠ some (root.take 32) ∧
    (returned (checkProof weightHash root (wordOf 1 ++ wordOf 2) 2)).map Prod.fst = some true := by
  refine ⟨_, node weightHash (wordOf 1) (wordOf 2), ⟨4, rfl⟩, rfl, ?_, by decide +kernel,
    by decide +kernel, by decide +kernel⟩
  have hone : ∀ b ∈ treeStrings weightHash (stringAt [wordOf 1, wordOf 2]) 1
      ∪ proofStrings weightHash (node weightHash (wordOf 1) (wordOf 2)) 0,
      b = wordOf 1 ++ wordOf 2 := by
    rintro b (hb | ⟨k, hk, -⟩)
    · exact eq_of_mem_treeStrings_two hb
    · rw [length_node] at hk
      omega
  exact fun b hb c hc _ => (hone b hb).trans (hone c hc).symm

end GoPlasma.Merkle
