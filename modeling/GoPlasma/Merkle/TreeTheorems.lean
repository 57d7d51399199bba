import GoPlasma.Merkle.Tree
import Mathlib.Data.Nat.Log

/-!
# What `Merkelize` builds

`Merkelize` returns for every list of leaves except the empty one, whose length its test for powers
of two never finishes with. The array that it returns holds the tree of height `⌈log₂ n⌉` over the
leaves and the empty strings behind them: `merkelize_isTree`.

The functions that read a tree or a proof stay within their bounds except at one input each
(`total_iff`).
-/

namespace GoPlasma.Merkle

variable {keccak : Bytes → Hash} {l l' tree : List Bytes} {fuel fuel' depth depth' : ℕ}

/-! ## Slices -/

theorem elem_eq_ok {i : ℕ} {b : Bytes} : elem l i = .ok b ↔ l[i]? = some b := by
  rw [elem]
  cases l[i]? with
  | none => simp
  | some a => simp

theorem elem_of_length_le {i : ℕ} (h : l.length ≤ i) : elem l i = .error .indexOutOfRange := by
  rw [elem, List.getElem?_eq_none h]
  rfl

/-! ## Powers of two -/

/-- With enough calls the test is right about every positive number. -/
theorem isAPowerOf2_spec {x : ℕ} (hx : 0 < x) (hfuel : x ≤ fuel) :
    ∃ b, isAPowerOf2 fuel x = .ok b ∧ (b = true ↔ ∃ k, x = 2 ^ k) := by
  induction fuel generalizing x with
  | zero => omega
  | succ fuel ih =>
    rw [isAPowerOf2]
    by_cases hone : x = 1
    · rw [if_pos hone]
      exact ⟨true, rfl, iff_of_true rfl ⟨0, hone⟩⟩
    rw [if_neg hone]
    by_cases hodd : x % 2 = 1
    · rw [if_pos hodd]
      refine ⟨false, rfl, iff_of_false Bool.false_ne_true ?_⟩
      rintro ⟨_ | k, hk⟩
      · exact hone hk
      · rw [pow_succ] at hk
        omega
    rw [if_neg hodd]
    -- an even number is a power of two exactly if its half is
    obtain ⟨b, hb, hiff⟩ := ih (x := x / 2) (by omega) (by omega)
    refine ⟨b, hb, hiff.trans ⟨?_, ?_⟩⟩
    · rintro ⟨k, hk⟩
      exact ⟨k + 1, by rw [pow_succ]; omega⟩
    · rintro ⟨_ | k, hk⟩
      · exact absurd hk hone
      · rw [pow_succ] at hk
        exact ⟨k, by omega⟩

/-- The test does not come to an end on 0. -/
theorem isAPowerOf2_zero (fuel : ℕ) : isAPowerOf2 fuel 0 = .error .stackOverflow := by
  induction fuel with
  | zero => rfl
  | succ fuel ih => rw [isAPowerOf2, if_neg (by omega), if_neg (by omega), Nat.zero_div, ih]

theorem isAPowerOf2_mono {x : ℕ} {b : Bool} (h : isAPowerOf2 fuel x = .ok b)
    (hle : fuel ≤ fuel') : isAPowerOf2 fuel' x = .ok b := by
  induction fuel generalizing fuel' x with
  | zero => cases h
  | succ fuel ih =>
    obtain ⟨fuel', rfl⟩ : ∃ f, fuel' = f + 1 := ⟨fuel' - 1, by omega⟩
    rw [isAPowerOf2] at h ⊢
    split_ifs at h ⊢
    · exact h
    · exact h
    · exact ih h (by omega)

/-! ## Padding -/

theorem padLeaves_mono (h : padLeaves depth fuel l = .ok l') (hdepth : depth ≤ depth')
    (hfuel : fuel ≤ fuel') : padLeaves depth' fuel' l = .ok l' := by
  induction fuel generalizing fuel' l with
  | zero => cases h
  | succ fuel ih =>
    obtain ⟨fuel', rfl⟩ : ∃ f, fuel' = f + 1 := ⟨fuel' - 1, by omega⟩
    rw [padLeaves, bind_eq_ok] at h
    obtain ⟨full, hfull, h⟩ := h
    rw [padLeaves, bind_eq_ok]
    refine ⟨full, isAPowerOf2_mono hfull hdepth, ?_⟩
    split_ifs at h ⊢
    · exact h
    · exact ih h (by omega)

/-- Between two powers of two the loop goes on until the larger one. -/
theorem padLeaves_between {d : ℕ} (hlow : 2 ^ d < 2 * l.length) (hhigh : l.length ≤ 2 ^ d)
    (hdepth : 2 ^ d ≤ depth) (hfuel : 2 ^ d < l.length + fuel) :
    padLeaves depth fuel l = .ok (l ++ List.replicate (2 ^ d - l.length) []) := by
  induction fuel generalizing l with
  | zero => omega
  | succ fuel ih =>
    obtain ⟨full, hfull, hiff⟩ := isAPowerOf2_spec (x := l.length) (by omega) (hhigh.trans hdepth)
    rw [padLeaves, hfull]
    change (if full = true then _ else _) = _
    by_cases heq : l.length = 2 ^ d
    · rw [if_pos (hiff.mpr ⟨d, heq⟩), heq, Nat.sub_self, List.replicate_zero, List.append_nil]
    · -- no power of two is between half of `2 ^ d` and `2 ^ d`
      have hnot : ¬ full = true := by
        intro h
        obtain ⟨k, hk⟩ := hiff.mp h
        have hkd : k < d := (Nat.pow_lt_pow_iff_right (by omega : 1 < 2)).mp (by omega)
        have hpow : 2 ^ (k + 1) ≤ 2 ^ d := Nat.pow_le_pow_right (by omega) hkd
        rw [pow_succ] at hpow
        omega
      have hlen : (l ++ [([] : Bytes)]).length = l.length + 1 := by simp
      rw [if_neg hnot, ih (by omega) (by omega) (by omega), hlen, List.append_assoc,
        show 2 ^ d - l.length = 2 ^ d - (l.length + 1) + 1 by omega, List.replicate_succ]
      rfl

/-- The string at an index, and the empty one behind the end. -/
def stringAt (l : List Bytes) (q : ℕ) : Bytes := l[q]?.getD []

theorem getElem?_eq_stringAt {q : ℕ} (hq : q < l.length) : l[q]? = some (stringAt l q) := by
  rw [stringAt, List.getElem?_eq_getElem hq]
  rfl

theorem stringAt_of_length_le {q : ℕ} (hq : l.length ≤ q) : stringAt l q = [] := by
  rw [stringAt, List.getElem?_eq_none hq]
  rfl

/-- The height of the tree over a list of leaves. -/
def height (l : List Bytes) : ℕ := Nat.clog 2 l.length

theorem length_le_height (l : List Bytes) : l.length ≤ 2 ^ height l :=
  Nat.le_pow_clog (by omega) l.length

theorem height_lt (hl : l ≠ []) : 2 ^ height l < 2 * l.length := by
  have hpos : 0 < l.length := List.length_pos_iff.mpr hl
  by_cases hone : l.length = 1
  · simp [height, hone]
  · have hpred := Nat.pow_pred_clog_lt_self (b := 2) (by omega) (by omega : 1 < l.length)
    have hclog : 0 < Nat.clog 2 l.length := Nat.clog_pos (by omega) (by omega)
    obtain ⟨c, hc⟩ := Nat.exists_eq_succ_of_ne_zero hclog.ne'
    rw [hc, Nat.pred_succ] at hpred
    rw [height, hc, pow_succ]
    omega

theorem padLeaves_eq (hl : l ≠ []) (hfuel : 2 * l.length ≤ fuel) :
    padLeaves fuel fuel l = .ok (l ++ List.replicate (2 ^ height l - l.length) []) := by
  have hlow := height_lt hl
  have hpos : 0 < l.length := List.length_pos_iff.mpr hl
  exact padLeaves_between hlow (length_le_height l) (by omega) (by omega)

theorem getElem?_padded (l : List Bytes) {q : ℕ} (hq : q < 2 ^ height l) :
    (l ++ List.replicate (2 ^ height l - l.length) [])[q]? = some (stringAt l q) := by
  rw [List.getElem?_append, stringAt]
  split_ifs with h
  · simp [h]
  · have hlt : q - l.length < 2 ^ height l - l.length := by omega
    simp [hlt, List.getElem?_eq_none (not_lt.mp h)]

/-! ## The array -/

variable (keccak) in
/-- An inner node. -/
def node (a b : Bytes) : Bytes := computehash keccak [a ++ b]

@[simp] theorem length_node (a b : Bytes) : (node keccak a b).length = 32 :=
  (keccak _).2

theorem setNode_eq {nodes : List Bytes} {i : ℕ} (hi : i * 2 + 1 < nodes.length) :
    setNode keccak nodes i
      = .ok (nodes.set i (node keccak (stringAt nodes (2 * i)) (stringAt nodes (2 * i + 1)))) := by
  have hat : ∀ j, j < nodes.length → elem nodes j = .ok (stringAt nodes j) :=
    fun j hj => elem_eq_ok.mpr (getElem?_eq_stringAt hj)
  rw [setNode, hat _ (by omega), hat _ hi, Nat.mul_comm i 2]
  rfl

/-- The last loop of `Merkelize`: from the node before the first that is set on, all are set. -/
theorem foldlM_setNode {n k : ℕ} {nodes : List Bytes} (hlen : nodes.length = 2 * n) (hk : k ≤ n)
    (hset : ∀ i, 0 < i → k ≤ i → i < n →
      stringAt nodes i = node keccak (stringAt nodes (2 * i)) (stringAt nodes (2 * i + 1))) :
    ∃ tree, (List.range k).reverse.foldlM (setNode keccak) nodes = .ok tree ∧
      tree.length = 2 * n ∧ (∀ i, k ≤ i → stringAt tree i = stringAt nodes i) ∧
      ∀ i, 0 < i → i < n →
        stringAt tree i = node keccak (stringAt tree (2 * i)) (stringAt tree (2 * i + 1)) := by
  induction k generalizing nodes with
  | zero => exact ⟨nodes, rfl, hlen, fun _ _ => rfl, fun i h0 hi => hset i h0 (by omega) hi⟩
  | succ k ih =>
    -- the round for `k` changes node `k` alone
    have hother : ∀ v i, i ≠ k → stringAt (nodes.set k v) i = stringAt nodes i := by
      intro v i hi
      rw [stringAt, stringAt, List.getElem?_set_ne (Ne.symm hi)]
    have hself : ∀ v, stringAt (nodes.set k v) k = v := by
      intro v
      rw [stringAt, List.getElem?_set_self (by omega)]
      rfl
    set v := node keccak (stringAt nodes (2 * k)) (stringAt nodes (2 * k + 1)) with hv
    have hnext : ∀ i, 0 < i → k ≤ i → i < n → stringAt (nodes.set k v) i
        = node keccak (stringAt (nodes.set k v) (2 * i))
            (stringAt (nodes.set k v) (2 * i + 1)) := by
      intro i h0 hki hi
      rw [hother _ (2 * i) (by omega), hother _ (2 * i + 1) (by omega)]
      rcases Nat.eq_or_lt_of_le hki with rfl | hlt
      · rw [hself]
      · rw [hother _ i (by omega), hset i h0 hlt hi]
    obtain ⟨tree, hrun, hlen', hkeep, hall⟩ :=
      ih (by rw [List.length_set, hlen]) (by omega) hnext
    refine ⟨tree, ?_, hlen', ?_, hall⟩
    · rw [List.range_succ, List.reverse_append, List.reverse_singleton, List.singleton_append,
        List.foldlM_cons, setNode_eq (by omega)]
      exact hrun
    · intro i hi
      rw [hkeep i (by omega), hother _ i (by omega)]

variable (keccak) in
/-- The array of a tree of height `d`. -/
structure IsTree (leaf : ℕ → Bytes) (d : ℕ) (tree : List Bytes) : Prop where
  length : tree.length = 2 * 2 ^ d
  node_eq : ∀ {h k p}, h + k = d → p < 2 ^ k →
    tree[2 ^ k + p]? = some (BinTree.root (node keccak) leaf h p)

/-- `Merkelize` builds the tree over the leaves and the padding. -/
theorem merkelize_isTree (hl : l ≠ []) (hfuel : 2 * l.length ≤ fuel) :
    ∃ tree, merkelize keccak fuel l = .ok tree ∧ IsTree keccak (stringAt l) (height l) tree := by
  set d := height l with hd
  set padded := l ++ List.replicate (2 ^ d - l.length) ([] : Bytes) with hpadded
  have hlen : padded.length = 2 ^ d := by
    have hle : l.length ≤ 2 ^ d := length_le_height l
    rw [hpadded, List.length_append, List.length_replicate]
    omega
  have hnodes : (List.replicate (2 ^ d) [] ++ padded).length = 2 * 2 ^ d := by
    rw [List.length_append, List.length_replicate, hlen]
    omega
  obtain ⟨tree, hrun, htree, hkeep, hall⟩ :=
    @foldlM_setNode keccak _ _ _ hnodes le_rfl fun i _ hk hi => by omega
  refine ⟨tree, ?_, htree, ?_⟩
  · rw [merkelize, padLeaves_eq hl hfuel]
    change (List.range padded.length).reverse.foldlM _ (List.replicate padded.length [] ++ padded)
      = _
    rw [hlen, hrun]
  · intro h k p hk hp
    have hroot := BinTree.InArray.root_eq (node keccak) (t := stringAt tree) hall hk hp
    have hlt : 2 ^ k + p < tree.length := by
      have hpow : 2 ^ k ≤ 2 ^ d := Nat.pow_le_pow_right (by omega) (by omega)
      omega
    -- the loop only writes in front of the leaves
    have hleaf : ∀ q, q / 2 ^ h = p → stringAt tree (2 ^ d + q) = stringAt l q := by
      intro q hq
      have hq' : q < 2 ^ d := by
        rw [← hk, pow_add]
        exact (Nat.div_lt_iff_lt_mul (by positivity)).mp (hq ▸ hp) |>.trans_eq (Nat.mul_comm _ _)
      rw [hkeep _ (by omega), stringAt, List.getElem?_append_right (by simp)]
      simp only [List.length_replicate, Nat.add_sub_cancel_left]
      rw [getElem?_padded l hq']
      rfl
    rw [← BinTree.root_congr (node keccak) hleaf, ← hroot, getElem?_eq_stringAt hlt]

theorem merkelize_mono (h : merkelize keccak fuel l = .ok tree) (hle : fuel ≤ fuel') :
    merkelize keccak fuel' l = .ok tree := by
  rw [merkelize, bind_eq_ok] at h ⊢
  obtain ⟨padded, hpad, h⟩ := h
  exact ⟨padded, padLeaves_mono hpad hle hle, h⟩

variable (keccak) in
/-- `Merkelize` returns this array. -/
def Merkelized (l tree : List Bytes) : Prop := ∃ fuel, merkelize keccak fuel l = .ok tree

/-- On the empty list `Merkelize` does not come to an end. -/
theorem merkelize_nil (fuel : ℕ) : merkelize keccak fuel [] = .error .stackOverflow := by
  cases fuel with
  | zero => rfl
  | succ fuel =>
    rw [merkelize, padLeaves, List.length_nil, isAPowerOf2_zero]
    rfl

theorem Merkelized.ne_nil (h : Merkelized keccak l tree) : l ≠ [] := by
  rintro rfl
  obtain ⟨fuel, h⟩ := h
  rw [merkelize_nil] at h
  cases h

theorem Merkelized.isTree (h : Merkelized keccak l tree) :
    IsTree keccak (stringAt l) (height l) tree := by
  obtain ⟨fuel, hrun⟩ := id h
  obtain ⟨tree', hrun', htree⟩ :=
    @merkelize_isTree keccak l (max fuel (2 * l.length)) h.ne_nil (le_max_right _ _)
  rw [merkelize_mono hrun (le_max_left _ _)] at hrun'
  rwa [Except.ok.inj hrun']

theorem exists_merkelized_iff : (∃ tree, Merkelized keccak l tree) ↔ l ≠ [] := by
  constructor
  · rintro ⟨tree, h⟩
    exact h.ne_nil
  · intro hl
    obtain ⟨tree, hrun, -⟩ := @merkelize_isTree keccak l _ hl le_rfl
    exact ⟨tree, _, hrun⟩

/-! ## Bounds -/

theorem IsTree.half {leaf : ℕ → Bytes} {d : ℕ} (h : IsTree keccak leaf d tree) :
    tree.length / 2 = 2 ^ d := by
  rw [h.length]
  omega

/-- The index behind the last leaf passes the check of `GenProof`, and there is no such node. -/
theorem IsTree.genProof_end {leaf : ℕ → Bytes} {d : ℕ} (h : IsTree keccak leaf d tree) :
    genProof tree (2 ^ d) = .error .indexOutOfRange := by
  rw [genProof, h.half, if_neg (by omega), elem_of_length_le (by rw [h.length]; omega)]
  rfl

theorem genProof_of_lt {i : ℕ} (h : tree.length / 2 < i) :
    genProof tree i = .ok (.error "Invalid idx") := by
  rw [genProof, if_pos h]

/-- `CheckProof` reads a first word of every string that its check lets pass. -/
theorem checkProof_returns_iff {root mkproof : Bytes} {i : ℕ} :
    (∃ r, checkProof keccak root mkproof i = .ok r) ↔ mkproof ≠ [] := by
  constructor
  · rintro ⟨r, h⟩ rfl
    rw [checkProof, if_neg (by simp), window, if_neg (by simp)] at h
    cases h
  · intro hne
    have hpos : 0 < mkproof.length := List.length_pos_iff.mpr hne
    rw [checkProof]
    split_ifs with hlen
    · exact ⟨_, rfl⟩
    · rw [window, if_pos (by omega)]
      exact ⟨_, rfl⟩

/-- Where the package comes to an end without a panic: `Merkelize` on every list except the empty
one, `GenProof` on every index behind the leaves except the first, and `CheckProof` on every string
except the empty one. -/
theorem total_iff (keccak : Bytes → Hash) (l : List Bytes) :
    ((∃ tree, Merkelized keccak l tree) ↔ l ≠ []) ∧
    (∀ tree i, Merkelized keccak l tree → tree.length / 2 ≤ i →
      ((∃ e, genProof tree i = .ok (.error e)) ↔ i ≠ tree.length / 2)) ∧
    ∀ root mkproof i, (∃ r, checkProof keccak root mkproof i = .ok r) ↔ mkproof ≠ [] := by
  refine ⟨exists_merkelized_iff, ?_, fun _ _ _ => checkProof_returns_iff⟩
  intro tree i htree hi
  constructor
  · rintro ⟨e, he⟩ rfl
    rw [htree.isTree.half, htree.isTree.genProof_end] at he
    cases he
  · intro hne
    exact ⟨_, genProof_of_lt (by omega)⟩

theorem total_iff_one : ∃ tree, Merkelized (fun _ => zeroHash) [zeroHash.1] tree ∧
    ∃ e, genProof tree 2 = .ok (.error e) := by
  obtain ⟨hmerkelize, hgen, -⟩ := total_iff (fun _ => zeroHash) [zeroHash.1]
  obtain ⟨tree, htree⟩ := hmerkelize.mpr (by simp)
  have hhalf : tree.length / 2 = 1 := by
    rw [htree.isTree.half]
    rfl
  exact ⟨tree, htree, (hgen tree 2 htree (by omega)).mpr (by omega)⟩

/-- No leaves, the index behind the only leaf, and the empty proof. -/
theorem not_total : (∀ fuel, merkelize (fun _ => zeroHash) fuel [] = .error .stackOverflow) ∧
    (∃ tree, Merkelized (fun _ => zeroHash) [zeroHash.1] tree ∧ tree.length / 2 = 1 ∧
      genProof tree 1 = .error .indexOutOfRange) ∧
    checkProof (fun _ => zeroHash) zeroHash.1 [] 0 = .error .indexOutOfRange := by
  refine ⟨merkelize_nil, ⟨_, ⟨2, rfl⟩, rfl, rfl⟩, rfl⟩

end GoPlasma.Merkle
