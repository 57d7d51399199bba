import Mathlib.Tactic
import Mathlib.Data.Nat.Bitwise
import Mathlib.Data.Set.Function

/-!
# Complete binary trees over a node function

The value of a complete binary tree whose inner nodes combine their two children with `node`.
A subtree is addressed by its height `h` and its position `p` from the left; the leaves below
it are the `q` with `q / 2 ^ h = p`.

* `root` is the value of a subtree, `root_add` cuts a tall subtree at any height;
* `empty` is the value of a subtree all of whose leaves are `z` (`root_eq_empty`);
* `climb` goes from one leaf up along its own path, `climb_eq_root` says that with the true
  siblings it arrives at the root;
* `root_inj` recovers the leaves from a root, when `node` has no collision among the pairs
  that were combined; `root_inj_of_pairs` asks for less.
-/

namespace BinTree

variable {α : Type*} (node : α → α → α)

/-! ## Roots -/

/-- The value of the subtree of height `h` at position `p`. -/
def root (leaf : ℕ → α) : ℕ → ℕ → α
  | 0, p => leaf p
  | h + 1, p => node (root leaf h (2 * p)) (root leaf h (2 * p + 1))

/-- The value of a subtree of height `h` whose leaves are all `z`. -/
def empty (z : α) : ℕ → α
  | 0 => z
  | h + 1 => node (empty z h) (empty z h)

@[simp] theorem root_zero (leaf : ℕ → α) (p : ℕ) : root node leaf 0 p = leaf p := rfl

theorem root_succ (leaf : ℕ → α) (h p : ℕ) :
    root node leaf (h + 1) p = node (root node leaf h (2 * p)) (root node leaf h (2 * p + 1)) := rfl

/-- A subtree of height `a + b` is one of height `b` over the subtrees of height `a`. -/
theorem root_add (leaf : ℕ → α) (a b p : ℕ) :
    root node leaf (a + b) p = root node (root node leaf a) b p := by
  induction b generalizing p with
  | zero => rfl
  | succ b ih => rw [← Nat.add_assoc, root_succ, root_succ, ih, ih]

private theorem div_pow_succ {q h p : ℕ} (b : ℕ) (hb : b < 2) (hq : q / 2 ^ h = 2 * p + b) :
    q / 2 ^ (h + 1) = p := by
  rw [pow_succ, ← Nat.div_div_eq_div_mul, hq]
  omega

/-- A root depends only on the leaves below it. -/
theorem root_congr {leaf leaf' : ℕ → α} {h p : ℕ}
    (heq : ∀ q, q / 2 ^ h = p → leaf q = leaf' q) :
    root node leaf h p = root node leaf' h p := by
  induction h generalizing p with
  | zero => exact heq p (by simp)
  | succ h ih =>
    have hl : root node leaf h (2 * p) = root node leaf' h (2 * p) :=
      ih fun q hq => heq q (div_pow_succ 0 (by omega) hq)
    have hr : root node leaf h (2 * p + 1) = root node leaf' h (2 * p + 1) :=
      ih fun q hq => heq q (div_pow_succ 1 (by omega) hq)
    rw [root_succ, root_succ, hl, hr]

/-- A subtree may be addressed from its own left end. -/
theorem root_shift (leaf : ℕ → α) (h a q : ℕ) :
    root node (fun i => leaf (a * 2 ^ h + i)) h q = root node leaf h (a + q) := by
  induction h generalizing a q with
  | zero => simp
  | succ h ih =>
    have hoff : a * 2 ^ (h + 1) = 2 * a * 2 ^ h := by ring
    rw [root_succ, root_succ, hoff, ih, ih]
    congr 2
    · ring
    · ring

theorem root_const (z : α) (h p : ℕ) : root node (fun _ => z) h p = empty node z h := by
  induction h generalizing p with
  | zero => rfl
  | succ h ih => rw [root_succ, ih, ih, empty]

/-- A subtree all of whose leaves are `z`. -/
theorem root_eq_empty {leaf : ℕ → α} {z : α} {h p : ℕ} (hz : ∀ q, q / 2 ^ h = p → leaf q = z) :
    root node leaf h p = empty node z h := by
  rw [root_congr node hz, root_const]

/-! ## Climbing from a leaf -/

/-- Combine `v` upwards along the path of leaf `n`, `sib i` being the sibling at height `i`. -/
def climb (sib : ℕ → α) (n : ℕ) (v : α) : ℕ → α
  | 0 => v
  | h + 1 => if n.testBit h then node (sib h) (climb sib n v h) else node (climb sib n v h) (sib h)

/-- The number of bits that are set below bit `i`. -/
def setBelow (bits : ℕ) : ℕ → ℕ
  | 0 => 0
  | i + 1 => setBelow bits i + (bits.testBit i).toNat

theorem setBelow_eq_length (bits i : ℕ) :
    setBelow bits i = ((List.range i).filter fun b => bits.testBit b).length := by
  induction i with
  | zero => rfl
  | succ i ih =>
    rw [setBelow, ih, List.range_succ, List.filter_append, List.length_append]
    rcases hb : bits.testBit i
    · simp [hb]
    · simp [hb]

/-- The sibling at height `i` by a proof that has a hash only for the heights whose bit is set;
the others are `z i`. -/
def proofSibling (bits : ℕ) (hashes : List α) (z : ℕ → α) (i : ℕ) : α :=
  if bits.testBit i then hashes[setBelow bits i]?.getD (z i) else z i

/-- The position next to `p`, the other child of the same parent. -/
def sibling (p : ℕ) : ℕ := if p % 2 = 1 then p - 1 else p + 1

theorem climb_congr {sib sib' : ℕ → α} {n h : ℕ} {v : α} (heq : ∀ i, i < h → sib i = sib' i) :
    climb node sib n v h = climb node sib' n v h := by
  induction h with
  | zero => rfl
  | succ h ih =>
    rw [climb, climb, ih fun i hi => heq i (by omega), heq h (by omega)]

theorem testBit_mod {n h d : ℕ} (hd : h < d) : (n % 2 ^ d).testBit h = n.testBit h := by
  rw [Nat.testBit_mod_two_pow, decide_eq_true hd, Bool.true_and]

/-- Only the bits of `n` below the height count. -/
theorem climb_mod (sib : ℕ → α) (n : ℕ) (v : α) {h d : ℕ} (hd : h ≤ d) :
    climb node sib (n % 2 ^ d) v h = climb node sib n v h := by
  induction h with
  | zero => rfl
  | succ h ih => rw [climb, climb, testBit_mod (by omega), ih (by omega)]

/-- A climb goes on from where a first part of it has arrived. -/
theorem climb_add (sib : ℕ → α) (n : ℕ) (v : α) (a b : ℕ) :
    climb node sib n v (a + b)
      = climb node (fun i => sib (a + i)) (n / 2 ^ a) (climb node sib n v a) b := by
  induction b with
  | zero => rfl
  | succ b ih =>
    rw [← Nat.add_assoc, climb, climb, Nat.testBit_div_two_pow, Nat.add_comm b a, ih]

theorem testBit_eq_mod (n h : ℕ) : n.testBit h = decide (n / 2 ^ h % 2 = 1) := by
  rw [Nat.testBit_eq_decide_div_mod_eq]

/-- The pair that is combined at height `i` above leaf `n`. -/
def pathPair (leaf : ℕ → α) (n i : ℕ) : α × α :=
  (root node leaf i (2 * (n / 2 ^ (i + 1))), root node leaf i (2 * (n / 2 ^ (i + 1)) + 1))

theorem pathPair_eq (leaf : ℕ → α) (n i : ℕ) :
    pathPair node leaf n i = if n.testBit i
      then (root node leaf i (sibling (n / 2 ^ i)), root node leaf i (n / 2 ^ i))
      else (root node leaf i (n / 2 ^ i), root node leaf i (sibling (n / 2 ^ i))) := by
  rw [pathPair, testBit_eq_mod, sibling, pow_succ, ← Nat.div_div_eq_div_mul]
  set p := n / 2 ^ i
  by_cases hodd : p % 2 = 1
  · have h1 : 2 * (p / 2) = p - 1 := by omega
    have h2 : p - 1 + 1 = p := by omega
    simp only [hodd, decide_true, if_true, h1, h2]
  · have h1 : 2 * (p / 2) = p := by omega
    simp only [hodd, decide_false, Bool.false_eq_true, if_false, h1]

/-- The parent of the node above leaf `n` at height `h`, from that node and its sibling. -/
theorem root_parent (leaf : ℕ → α) (n h : ℕ) :
    root node leaf (h + 1) (n / 2 ^ (h + 1))
      = if n.testBit h then node (root node leaf h (sibling (n / 2 ^ h)))
        (root node leaf h (n / 2 ^ h))
        else node (root node leaf h (n / 2 ^ h)) (root node leaf h (sibling (n / 2 ^ h))) := by
  have hpair : root node leaf (h + 1) (n / 2 ^ (h + 1))
      = Function.uncurry node (pathPair node leaf n h) := rfl
  rw [hpair, pathPair_eq]
  split_ifs
  · rfl
  · rfl

/-- With the true siblings, climbing from a leaf arrives at the root. -/
theorem climb_eq_root (leaf : ℕ → α) {sib : ℕ → α} {n h : ℕ}
    (hsib : ∀ i, i < h → sib i = root node leaf i (sibling (n / 2 ^ i))) :
    climb node sib n (leaf n) h = root node leaf h (n / 2 ^ h) := by
  induction h with
  | zero => simp [climb]
  | succ h ih =>
    rw [climb, ih fun i hi => hsib i (by omega), hsib h (by omega), root_parent]

/-- The leaves below a sibling are not below the node itself. -/
theorem sibling_ne (p : ℕ) : sibling p ≠ p := by
  rw [sibling]
  split <;> omega

/-- Siblings have one parent. -/
theorem sibling_div_two (p : ℕ) : sibling p / 2 = p / 2 := by
  rw [sibling]
  split <;> omega

/-- A leaf below a sibling of the path of `n` is below every node of the path further up. -/
theorem div_pow_of_sibling {q n b h : ℕ} (hq : q / 2 ^ b = sibling (n / 2 ^ b)) (hbh : b < h) :
    q / 2 ^ h = n / 2 ^ h := by
  obtain ⟨e, rfl⟩ := Nat.exists_eq_add_of_lt hbh
  rw [show b + e + 1 = b + (1 + e) by ring, pow_add, pow_add, pow_one, ← Nat.div_div_eq_div_mul,
    ← Nat.div_div_eq_div_mul, ← Nat.div_div_eq_div_mul, ← Nat.div_div_eq_div_mul, hq,
    sibling_div_two]

/-- The sibling of a position, counted from the left end of an even-sized block. -/
theorem sibling_add {a q : ℕ} (ha : a % 2 = 0) : sibling (a + q) = a + sibling q := by
  unfold sibling
  split_ifs <;> omega

theorem xor_one (i : ℕ) : i ^^^ 1 = sibling i := by
  rw [sibling]
  split_ifs with h
  · exact Nat.xor_one_of_odd (Nat.odd_iff.mpr h)
  · exact Nat.xor_one_of_even (Nat.even_iff.mpr (by omega))

/-! ## Trees in an array

A tree of height `d` in an array: node 1 is the root, the children of node `i` are the nodes `2 * i`
and `2 * i + 1`, and the leaves are the nodes from `2 ^ d` on. -/

/-- Every inner node combines its children. -/
def InArray (t : ℕ → α) (d : ℕ) : Prop :=
  ∀ i, 0 < i → i < 2 ^ d → t i = node (t (2 * i)) (t (2 * i + 1))

/-- The nodes of one depth are the subtrees below it, from the left. -/
theorem InArray.root_eq {t : ℕ → α} {d : ℕ} (ht : InArray node t d) {h k p : ℕ} (hk : h + k = d)
    (hp : p < 2 ^ k) : t (2 ^ k + p) = root node (fun q => t (2 ^ d + q)) h p := by
  induction h generalizing k p with
  | zero =>
    obtain rfl : k = d := by omega
    rfl
  | succ h ih =>
    have hlt : 2 ^ k + p < 2 ^ d :=
      calc 2 ^ k + p < 2 ^ (k + 1) := by rw [pow_succ]; omega
        _ ≤ 2 ^ d := Nat.pow_le_pow_right (by omega) (by omega)
    have hchild : ∀ c < 2, t (2 * (2 ^ k + p) + c)
        = root node (fun q => t (2 ^ d + q)) h (2 * p + c) := by
      intro c hc
      rw [← ih (k := k + 1) (by omega) (by rw [pow_succ]; omega), pow_succ]
      congr 1
      ring
    rw [ht _ (by positivity) hlt, root_succ, ← hchild 1 (by omega)]
    congr 1
    exact hchild 0 (by omega)

/-! ## Recovering the leaves -/

/-- The pairs that are combined below height `d`. -/
def pairs (leaf : ℕ → α) (d : ℕ) : Set (α × α) :=
  {x | ∃ h p, h < d ∧ x = (root node leaf h (2 * p), root node leaf h (2 * p + 1))}

theorem mem_pairs (leaf : ℕ → α) {h d : ℕ} (hd : h < d) (p : ℕ) :
    (root node leaf h (2 * p), root node leaf h (2 * p + 1)) ∈ pairs node leaf d :=
  ⟨h, p, hd, rfl⟩

/-- Equal roots have equal contents, as far down as the lower of the two trees goes: below a
subtree of height `h` are leaves, below one of height `h + e` subtrees of height `e`. `node` must
not collide on a pair of one tree and another pair of the other. -/
theorem root_inj_of_pairs {leaf leaf' : ℕ → α} {d : ℕ}
    (hinj : ∀ x ∈ pairs node leaf d, ∀ y ∈ pairs node leaf' d,
      Function.uncurry node x = Function.uncurry node y → x = y)
    {h e p p' : ℕ} (hd : h + e ≤ d) (heq : root node leaf h p = root node leaf' (h + e) p') :
    ∀ q, q < 2 ^ h → leaf (p * 2 ^ h + q) = root node leaf' e (p' * 2 ^ h + q) := by
  induction h generalizing p p' with
  | zero =>
    intro q hq
    have hq0 : q = 0 := by simpa using hq
    simpa [hq0] using heq
  | succ h ih =>
    intro q hq
    rw [show h + 1 + e = (h + e) + 1 by omega, root_succ, root_succ] at heq
    -- equal hashes are of equal pairs, so both children agree
    have hpair := hinj _ (mem_pairs node leaf (h := h) (by omega) p)
      _ (mem_pairs node leaf' (h := h + e) (by omega) p') heq
    obtain ⟨hl, hr⟩ := Prod.mk.inj hpair
    by_cases hlow : q < 2 ^ h
    · -- `q` is below the left child
      have := ih (by omega) hl q hlow
      rwa [show 2 * p * 2 ^ h = p * 2 ^ (h + 1) by ring,
        show 2 * p' * 2 ^ h = p' * 2 ^ (h + 1) by ring] at this
    · -- `q` is below the right child
      have hq' : q - 2 ^ h < 2 ^ h := by rw [pow_succ] at hq; omega
      have := ih (by omega) hr (q - 2 ^ h) hq'
      rwa [show (2 * p + 1) * 2 ^ h + (q - 2 ^ h) = p * 2 ^ (h + 1) + q by
          rw [pow_succ, add_mul]; ring_nf; omega,
        show (2 * p' + 1) * 2 ^ h + (q - 2 ^ h) = p' * 2 ^ (h + 1) + q by
          rw [pow_succ, add_mul]; ring_nf; omega] at this

theorem root_inj {leaf leaf' : ℕ → α} {d : ℕ}
    (hinj : Set.InjOn (Function.uncurry node) (pairs node leaf d ∪ pairs node leaf' d))
    {h e p p' : ℕ} (hd : h + e ≤ d) (heq : root node leaf h p = root node leaf' (h + e) p') :
    ∀ q, q < 2 ^ h → leaf (p * 2 ^ h + q) = root node leaf' e (p' * 2 ^ h + q) :=
  root_inj_of_pairs node (fun _ hx _ hy => hinj (Or.inl hx) (Or.inr hy)) hd heq

/-- The pair that is combined at height `i` when climbing from `v`. -/
def climbPair (sib : ℕ → α) (n : ℕ) (v : α) (i : ℕ) : α × α :=
  if n.testBit i then (sib i, climb node sib n v i) else (climb node sib n v i, sib i)

theorem climb_succ (sib : ℕ → α) (n : ℕ) (v : α) (i : ℕ) :
    climb node sib n v (i + 1) = Function.uncurry node (climbPair node sib n v i) := by
  rw [climb, climbPair]
  split_ifs
  · rfl
  · rfl

/-- With the true siblings, the pairs of the climb are pairs of the tree. -/
theorem climbPair_mem_pairs (leaf : ℕ → α) {sib : ℕ → α} {n i d : ℕ} (hi : i < d)
    (hsib : ∀ j, j ≤ i → sib j = root node leaf j (sibling (n / 2 ^ j))) :
    climbPair node sib n (leaf n) i ∈ pairs node leaf d := by
  have hclimb := climb_eq_root node leaf (fun j hj => hsib j (le_of_lt hj)) (n := n)
  refine ⟨i, n / 2 ^ (i + 1), hi, ?_⟩
  rw [climbPair, hclimb, hsib i le_rfl, ← pathPair_eq, pathPair]

theorem climbPair_mod (sib : ℕ → α) (n : ℕ) (v : α) {i d : ℕ} (hi : i < d) :
    climbPair node sib (n % 2 ^ d) v i = climbPair node sib n v i := by
  rw [climbPair, climbPair, testBit_mod hi, climb_mod node sib n v hi.le]

theorem climbPair_add (sib : ℕ → α) (n : ℕ) (v : α) (a b : ℕ) :
    climbPair node (fun i => sib (a + i)) (n / 2 ^ a) (climb node sib n v a) b
      = climbPair node sib n v (a + b) := by
  rw [climbPair, climbPair, Nat.testBit_div_two_pow, Nat.add_comm b a, climb_add]

/-- Climbing to the root of a tree, with whatever siblings, starts at its leaf, when no pair of the
climb collides with the one above the leaf. -/
theorem climb_inj_of_path {leaf sib : ℕ → α} {n d : ℕ} {v : α}
    (hinj : ∀ i < d,
      Function.uncurry node (climbPair node sib n v i)
        = Function.uncurry node (pathPair node leaf n i) →
      climbPair node sib n v i = pathPair node leaf n i)
    (h : climb node sib n v d = root node leaf d (n / 2 ^ d)) : v = leaf n := by
  induction d with
  | zero => simpa [climb] using h
  | succ d ih =>
    -- the two topmost pairs agree, so the climb is on the path of `n` one level below, too
    have hbelow : climb node sib n v d = root node leaf d (n / 2 ^ d) := by
      rw [climb_succ, root_succ] at h
      have hpair := hinj d (Nat.lt_succ_self d) h
      rw [climbPair, pathPair_eq] at hpair
      split_ifs at hpair
      · exact (Prod.mk.inj hpair).2
      · exact (Prod.mk.inj hpair).1
    exact ih (fun i hi => hinj i (by omega)) hbelow

theorem climb_inj {leaf sib : ℕ → α} {n d : ℕ} {v : α}
    (hinj : Set.InjOn (Function.uncurry node)
      (pairs node leaf d ∪ {x | ∃ i < d, x = climbPair node sib n v i}))
    (h : climb node sib n v d = root node leaf d (n / 2 ^ d)) : v = leaf n :=
  climb_inj_of_path node
    (fun i hi heq => hinj (.inr ⟨i, hi, rfl⟩) (.inl (mem_pairs node leaf hi _)) heq) h

/-! ## Trees with one leaf -/

/-- A child is on the path of leaf `n` exactly when its parent is and `n` has its bit. Positions
count modulo the width of the tree of height `d`. -/
theorem onPath_child {d n h p c : ℕ} (hh : h < d) (hc : c < 2) :
    (2 * p + c) % 2 ^ (d - h) = n / 2 ^ h
      ↔ p % 2 ^ (d - (h + 1)) = n / 2 ^ (h + 1) ∧ n / 2 ^ h % 2 = c := by
  have hpow : 2 ^ (d - h) = 2 * 2 ^ (d - (h + 1)) := by
    rw [← pow_succ']
    congr 1
    omega
  have hmod : (2 * p + c) % (2 * 2 ^ (d - (h + 1))) = 2 * (p % 2 ^ (d - (h + 1))) + c := by
    have hpos : 0 < 2 ^ (d - (h + 1)) := by positivity
    have hdm := Nat.div_add_mod p (2 ^ (d - (h + 1)))
    have hlt := Nat.mod_lt p hpos
    set M := 2 ^ (d - (h + 1))
    set q := p / M
    set r := p % M
    rw [← hdm, show 2 * (M * q + r) + c = 2 * M * q + (2 * r + c) by ring, Nat.mul_add_mod]
    apply Nat.mod_eq_of_lt
    omega
  have hdiv : n / 2 ^ (h + 1) = n / 2 ^ h / 2 := by rw [pow_succ, Nat.div_div_eq_div_mul]
  rw [hpow, hmod, hdiv]
  omega

section
variable {leaf : ℕ → α} {z v : α} {d n : ℕ}

/-- The two children of a node: both empty, or one of them on the path. -/
theorem children_single {h : ℕ} (hh : h < d)
    (ih : ∀ p, root node leaf h p =
      if p % 2 ^ (d - h) = n / 2 ^ h then climb node (empty node z) n v h else empty node z h)
    (p : ℕ) :
    (root node leaf h (2 * p), root node leaf h (2 * p + 1)) =
      if p % 2 ^ (d - (h + 1)) = n / 2 ^ (h + 1) then climbPair node (empty node z) n v h
      else (empty node z h, empty node z h) := by
  have hleft := onPath_child (n := n) (p := p) (c := 0) hh (by omega)
  have hright := onPath_child (n := n) (p := p) (c := 1) hh (by omega)
  rw [Nat.add_zero] at hleft
  rw [ih, ih, climbPair, testBit_eq_mod]
  simp only [hleft, hright]
  by_cases hp : p % 2 ^ (d - (h + 1)) = n / 2 ^ (h + 1)
  · rcases Nat.mod_two_eq_zero_or_one (n / 2 ^ h) with hb | hb
    · simp [hp, hb]
    · simp [hp, hb]
  · simp [hp]

variable (hleaf : ∀ q, leaf q = if q % 2 ^ d = n then v else z)
include hleaf

/-- The roots over one leaf: empty, or the climb from it. -/
theorem root_single {h : ℕ} (hh : h ≤ d) (p : ℕ) :
    root node leaf h p =
      if p % 2 ^ (d - h) = n / 2 ^ h then climb node (empty node z) n v h else empty node z h := by
  induction h generalizing p with
  | zero =>
    rw [root_zero, hleaf]
    simp [climb, empty]
  | succ h ih =>
    have hpair := children_single node hh (ih (by omega)) p
    have hnode : root node leaf (h + 1) p
        = Function.uncurry node (root node leaf h (2 * p), root node leaf h (2 * p + 1)) := rfl
    rw [hnode, hpair, climb_succ]
    split_ifs
    · rfl
    · rfl

/-- The pairs over one leaf. -/
theorem pairs_single {x : α × α} (hx : x ∈ pairs node leaf d) :
    ∃ h < d, x = (empty node z h, empty node z h) ∨ x = climbPair node (empty node z) n v h := by
  obtain ⟨h, p, hh, rfl⟩ := hx
  refine ⟨h, hh, ?_⟩
  rw [children_single node hh (root_single node hleaf hh.le) p]
  split_ifs
  · exact .inr rfl
  · exact .inl rfl

end

/-! ## Trees with few leaves -/

/-- The root over a few leaves, given with their positions, and the pairs that are combined on the
way; all other leaves are `z`. -/
def sparse (z : α) : ℕ → List (ℕ × α) → α × List (α × α)
  | 0, l => ((l.head?.map Prod.snd).getD z, [])
  | h + 1, [] => (empty node z (h + 1), [])
  | h + 1, x :: l =>
    let left := sparse z h ((x :: l).filter fun y => y.1.testBit h == false)
    let right := sparse z h ((x :: l).filter fun y => y.1.testBit h == true)
    (node left.1 right.1, (left.1, right.1) :: (left.2 ++ right.2))

/-- The leaves below position `p` at height `h` are those of the list. -/
def FewLeaves (z : α) (leaf : ℕ → α) (h p : ℕ) (l : List (ℕ × α)) : Prop :=
  ∀ q, q / 2 ^ h = p →
    leaf q = ((l.find? fun x => x.1 % 2 ^ h == q % 2 ^ h).map Prod.snd).getD z

theorem mod_pow_succ_eq_iff (x q h : ℕ) :
    x % 2 ^ (h + 1) = q % 2 ^ (h + 1) ↔ x.testBit h = q.testBit h ∧ x % 2 ^ h = q % 2 ^ h := by
  have hx := Nat.mod_lt x (Nat.two_pow_pos h)
  have hq := Nat.mod_lt q (Nat.two_pow_pos h)
  rw [testBit_eq_mod, testBit_eq_mod, pow_succ, Nat.mod_mul, Nat.mod_mul, decide_eq_decide]
  rcases Nat.mod_two_eq_zero_or_one (x / 2 ^ h) with h₁ | h₁ <;>
    rcases Nat.mod_two_eq_zero_or_one (q / 2 ^ h) with h₂ | h₂ <;> simp [h₁, h₂] <;> omega

/-- The leaves below a child. -/
theorem FewLeaves.child {z : α} {leaf : ℕ → α} {h p : ℕ} {l : List (ℕ × α)}
    (hl : FewLeaves z leaf (h + 1) p l) (b : Bool) :
    FewLeaves z leaf h (2 * p + b.toNat) (l.filter fun y => y.1.testBit h == b) := by
  intro q hq
  have hbit : q.testBit h = b := by
    rw [testBit_eq_mod, hq]
    cases b <;> simp
  rw [hl q (div_pow_succ b.toNat b.toNat_lt hq), List.find?_filter]
  congr 3
  funext x
  have hmod := mod_pow_succ_eq_iff x.1 q h
  rw [hbit] at hmod
  rw [Bool.eq_iff_iff]
  simpa using hmod

/-- `sparse` computes the root. -/
theorem root_sparse {z : α} {leaf : ℕ → α} {h p : ℕ} {l : List (ℕ × α)}
    (hl : FewLeaves z leaf h p l) : root node leaf h p = (sparse node z h l).1 := by
  induction h generalizing p l with
  | zero =>
    rw [root_zero, hl p (by simp)]
    rcases l with _ | ⟨x, l⟩
    · rfl
    · simp [sparse, Nat.mod_one]
  | succ h ih =>
    rcases l with _ | ⟨x, l⟩
    · exact root_eq_empty node fun q hq => by rw [hl q hq]; rfl
    · have hleft : root node leaf h (2 * p) = _ := ih (hl.child false)
      have hright : root node leaf h (2 * p + 1) = _ := ih (hl.child true)
      rw [root_succ, hleft, hright]
      rfl

/-- The pairs below a position are those of `sparse`, and pairs of empty subtrees. -/
theorem pair_sparse {z : α} {leaf : ℕ → α} {h p : ℕ} {l : List (ℕ × α)}
    (hl : FewLeaves z leaf h p l) {i q : ℕ} (hi : i < h) (hq : q / 2 ^ (h - (i + 1)) = p) :
    (root node leaf i (2 * q), root node leaf i (2 * q + 1)) ∈ (sparse node z h l).2 ∨
      (root node leaf i (2 * q), root node leaf i (2 * q + 1))
        = (empty node z i, empty node z i) := by
  induction h generalizing p l with
  | zero => omega
  | succ h ih =>
    rcases l with _ | ⟨x, l⟩
    · -- all leaves below are `z`
      right
      have hchild : ∀ c < 2, root node leaf i (2 * q + c) = empty node z i := by
        intro c hc
        apply root_eq_empty node
        intro q' hq'
        rw [hl q' ?_]
        · rfl
        · rw [show h + 1 = i + 1 + (h + 1 - (i + 1)) by omega, pow_add, ← Nat.div_div_eq_div_mul,
            div_pow_succ c hc hq', hq]
      exact Prod.ext (hchild 0 (by omega)) (hchild 1 (by omega))
    · rcases Nat.lt_succ_iff_lt_or_eq.mp hi with hi | rfl
      · -- the pair is below one of the children
        have hpos : h + 1 - (i + 1) = h - (i + 1) + 1 := by omega
        rw [hpos, pow_succ, ← Nat.div_div_eq_div_mul] at hq
        rcases Nat.mod_two_eq_zero_or_one (q / 2 ^ (h - (i + 1))) with hb | hb
        · rcases ih (hl.child false) hi (by simp; omega) with hmem | hempty
          · exact Or.inl (List.mem_cons_of_mem _ (List.mem_append_left _ hmem))
          · exact Or.inr hempty
        · rcases ih (hl.child true) hi (by simp; omega) with hmem | hempty
          · exact Or.inl (List.mem_cons_of_mem _ (List.mem_append_right _ hmem))
          · exact Or.inr hempty
      · have hqp : q = p := by simpa using hq
        have hleft : root node leaf i (2 * p) = _ := root_sparse node (hl.child false)
        have hright : root node leaf i (2 * p + 1) = _ := root_sparse node (hl.child true)
        rw [hqp, hleft, hright]
        exact Or.inl List.mem_cons_self

/-- The pairs of a tree with few leaves. -/
theorem pairs_sparse {z : α} {leaf : ℕ → α} {d : ℕ} {l : List (ℕ × α)}
    (hl : ∀ p, FewLeaves z leaf d p l) {x : α × α} (hx : x ∈ pairs node leaf d) :
    x ∈ (sparse node z d l).2 ∨ ∃ i < d, x = (empty node z i, empty node z i) := by
  obtain ⟨i, q, hi, rfl⟩ := hx
  rcases pair_sparse node (hl _) hi rfl with hmem | hempty
  · exact Or.inl hmem
  · exact Or.inr ⟨i, hi, hempty⟩

end BinTree
