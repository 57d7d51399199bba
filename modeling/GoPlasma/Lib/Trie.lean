import Mathlib.Tactic

/-!
# Compressed tries over natural number keys

A key is a number read in base `b`, most significant digit first. A trie of height `r` tells
apart keys by their `r` low digits; a subtree with a single key may be a `leaf` at any height.
`WF r p t` says that `t` sits at height `r` under the digits `p`: every key `k` below it has
`k / b ^ r = p`.

The operations follow the digits down from height `r`. What they do to the contents is said
with `find`: `find_upsert` and `find_delete`. Tries that insertions have built are determined by
their contents (`ext_of_tight`).
-/

/-- A trie with branching `b`: empty, one entry, or a node. -/
inductive Trie (b : ℕ) (V : Type*) where
  | nil
  | leaf (k : ℕ) (v : V)
  | branch (c : Fin b → Trie b V)

namespace Trie

variable {b : ℕ} {V : Type*}

/-! ## Digits -/

section
variable [NeZero b]

/-- Digit `r` of `k`, counted from the least significant. -/
def digit (r k : ℕ) : Fin b := Fin.ofNat b (k / b ^ r)

theorem div_pow_eq {r p k : ℕ} (h : k / b ^ (r + 1) = p) :
    k / b ^ r = b * p + (digit r k : Fin b) := by
  rw [digit, Fin.val_ofNat, ← h, pow_succ, ← Nat.div_div_eq_div_mul, Nat.div_add_mod]

theorem digit_of_div {r p k : ℕ} {j : Fin b} (h : k / b ^ r = b * p + j) : digit r k = j := by
  apply Fin.ext
  rw [digit, Fin.val_ofNat, h, Nat.mul_add_mod, Nat.mod_eq_of_lt j.isLt]

/-! ## Operations -/

/-- The entry of `k` in a trie of height `r`. -/
def find : ℕ → ℕ → Trie b V → Option V
  | _, _, nil => none
  | _, k, leaf k' v => if k = k' then some v else none
  | 0, _, branch _ => none
  | r + 1, k, branch c => find r k (c (digit r k))

/-- Change the entry of `k` to what `f` makes of it. A leaf of another key becomes a node
that holds both. -/
def upsert (k : ℕ) (f : Option V → V) : ℕ → Trie b V → Trie b V
  | _, nil => leaf k (f none)
  | 0, leaf k' v => if k = k' then leaf k (f (some v)) else branch fun _ => nil
  | r + 1, leaf k' v =>
    if k = k' then leaf k (f (some v))
    else
      let c := Function.update (fun _ => nil) (digit r k') (leaf k' v)
      branch (Function.update c (digit r k) (upsert k f r (c (digit r k))))
  | 0, branch c => branch c
  | r + 1, branch c => branch (Function.update c (digit r k) (upsert k f r (c (digit r k))))

/-- Remove the entry of `k`; the nodes above it stay. -/
def delete (k : ℕ) : ℕ → Trie b V → Trie b V
  | _, nil => nil
  | _, leaf k' v => if k = k' then nil else leaf k' v
  | 0, branch c => branch c
  | r + 1, branch c => branch (Function.update c (digit r k) (delete k r (c (digit r k))))

end

/-- The trie sits at height `r` under the digits `p`. -/
def WF : ℕ → ℕ → Trie b V → Prop
  | _, _, nil => True
  | r, p, leaf k _ => k / b ^ r = p
  | 0, _, branch _ => False
  | r + 1, p, branch c => ∀ j : Fin b, WF r (b * p + j) (c j)

@[simp] theorem wf_nil (r p : ℕ) : WF r p (nil : Trie b V) := by
  unfold WF
  trivial

@[simp] theorem wf_leaf {r p k : ℕ} {v : V} : WF r p (leaf k v : Trie b V) ↔ k / b ^ r = p := by
  cases r <;> rfl

theorem wf_branch {r p : ℕ} {c : Fin b → Trie b V} :
    WF (r + 1) p (branch c) ↔ ∀ j : Fin b, WF r (b * p + j) (c j) := Iff.rfl

/-- No leaf at height 0. -/
def Shallow : ℕ → Trie b V → Prop
  | _, nil => True
  | r, leaf _ _ => 0 < r
  | 0, branch _ => True
  | r + 1, branch c => ∀ j, Shallow r (c j)

@[simp] theorem shallow_nil (r : ℕ) : Shallow r (nil : Trie b V) := by
  unfold Shallow
  trivial

@[simp] theorem shallow_leaf {r k : ℕ} {v : V} : Shallow r (leaf k v : Trie b V) ↔ 0 < r := by
  cases r <;> rfl

/-- Every entry satisfies `P`. -/
def All (P : ℕ → V → Prop) : Trie b V → Prop
  | nil => True
  | leaf k v => P k v
  | branch c => ∀ j, All P (c j)

section
variable [NeZero b]

@[simp] theorem find_nil (r k : ℕ) : find r k (nil : Trie b V) = none := by cases r <;> rfl

@[simp] theorem find_leaf (r k k' : ℕ) (v : V) :
    find r k (leaf k' v : Trie b V) = if k = k' then some v else none := by cases r <;> rfl

@[simp] theorem find_branch (r k : ℕ) (c : Fin b → Trie b V) :
    find (r + 1) k (branch c) = find r k (c (digit r k)) := rfl

@[simp] theorem upsert_nil (k : ℕ) (f : Option V → V) (r : ℕ) :
    upsert k f r (nil : Trie b V) = leaf k (f none) := by cases r <;> rfl

theorem upsert_branch (k : ℕ) (f : Option V → V) (r : ℕ) (c : Fin b → Trie b V) :
    upsert k f (r + 1) (branch c)
      = branch (Function.update c (digit r k) (upsert k f r (c (digit r k)))) := rfl

theorem upsert_leaf_self (k : ℕ) (f : Option V → V) (r : ℕ) (v : V) :
    upsert k f r (leaf k v : Trie b V) = leaf k (f (some v)) := by cases r <;> simp [upsert]

/-- Splitting a leaf: both keys are inserted below a new node. -/
theorem upsert_leaf_ne {k k' : ℕ} (h : k ≠ k') (f : Option V → V) (r : ℕ) (v : V) :
    upsert k f (r + 1) (leaf k' v : Trie b V)
      = upsert k f (r + 1) (branch (Function.update (fun _ => nil) (digit r k') (leaf k' v))) := by
  simp [upsert, h]

theorem upsert_ne_nil (k : ℕ) (f : Option V → V) (r : ℕ) (t : Trie b V) : upsert k f r t ≠ nil := by
  rcases t with _ | ⟨k', v⟩ | c
  · simp
  · rcases r with _ | r
    · rw [upsert]
      split <;> simp
    · rw [upsert]
      split <;> simp
  · rcases r with _ | r
    · simp [upsert]
    · simp [upsert]

/-- In a node, changes of different keys commute if they do one level further down. -/
theorem upsert_branch_comm {k k' r : ℕ} {f g : Option V → V}
    (ih : (digit r k : Fin b) = digit r k' →
      ∀ t : Trie b V, upsert k f r (upsert k' g r t) = upsert k' g r (upsert k f r t))
    (c : Fin b → Trie b V) :
    upsert k f (r + 1) (upsert k' g (r + 1) (branch c))
      = upsert k' g (r + 1) (upsert k f (r + 1) (branch c)) := by
  simp only [upsert_branch]
  by_cases hd : (digit r k : Fin b) = digit r k'
  · simp only [← hd, Function.update_self, Function.update_idem, ih hd]
  · rw [Function.update_of_ne hd, Function.update_of_ne (Ne.symm hd), Function.update_comm hd]

/-- Changes of different keys commute. -/
theorem upsert_comm {k k' : ℕ} (hne : k ≠ k') (f g : Option V → V) {r : ℕ}
    (h : k / b ^ r = k' / b ^ r) (t : Trie b V) :
    upsert k f r (upsert k' g r t) = upsert k' g r (upsert k f r t) := by
  induction r generalizing t with
  | zero =>
    rw [pow_zero, Nat.div_one, Nat.div_one] at h
    exact (hne h).elim
  | succ r ih =>
    have hdiv : k' / b ^ r = b * (k' / b ^ (r + 1)) + (digit r k' : Fin b) := div_pow_eq rfl
    have hbranch := upsert_branch_comm (f := f) (g := g) fun hd => ih (by
      rw [div_pow_eq h, hdiv, hd])
    -- a leaf that is split is a node with one change
    have hsplit : ∀ (k₀ : ℕ) (f₀ : Option V → V),
        upsert k₀ f₀ (r + 1) (branch fun _ => nil : Trie b V)
          = branch (Function.update (fun _ => nil) (digit r k₀) (leaf k₀ (f₀ none))) := by
      intro k₀ f₀
      rw [upsert_branch, upsert_nil]
    have hagain : ∀ (k₀ : ℕ) (f₀ : Option V → V) (v : V),
        upsert k₀ f₀ (r + 1) (branch (Function.update (fun _ => nil) (digit r k₀) (leaf k₀ v)))
          = (branch (Function.update (fun _ => nil) (digit r k₀) (leaf k₀ (f₀ (some v)))) :
            Trie b V) := by
      intro k₀ f₀ v
      rw [upsert_branch, Function.update_self, Function.update_idem, upsert_leaf_self]
    rcases t with _ | ⟨k₀, v⟩ | c
    · rw [upsert_nil, upsert_nil, upsert_leaf_ne hne, upsert_leaf_ne (Ne.symm hne), ← hsplit,
        ← hsplit]
      exact hbranch _
    · by_cases h₀ : k = k₀
      · rw [← h₀, upsert_leaf_self, upsert_leaf_ne (Ne.symm hne), upsert_leaf_ne (Ne.symm hne),
          ← hagain]
        exact hbranch _
      · by_cases h₀' : k' = k₀
        · rw [← h₀', upsert_leaf_self, upsert_leaf_ne hne, upsert_leaf_ne hne, ← hagain]
          exact hbranch _
        · rw [upsert_leaf_ne h₀, upsert_leaf_ne h₀']
          exact hbranch _
    · exact hbranch c

@[simp] theorem delete_nil (k r : ℕ) : delete k r (nil : Trie b V) = nil := by cases r <;> rfl

@[simp] theorem delete_leaf (k r k' : ℕ) (v : V) :
    delete k r (leaf k' v : Trie b V) = if k = k' then nil else leaf k' v := by cases r <;> rfl

theorem delete_branch (k r : ℕ) (c : Fin b → Trie b V) :
    delete k (r + 1) (branch c)
      = branch (Function.update c (digit r k) (delete k r (c (digit r k)))) := rfl

/-! ## Well-formedness -/

/-- Replacing the child on the path of `k` keeps the node well formed. -/
theorem WF.update {r p k : ℕ} {c : Fin b → Trie b V} {t : Trie b V}
    (hc : ∀ j : Fin b, WF r (b * p + j) (c j)) (ht : WF r (b * p + (digit r k : Fin b)) t) :
    WF (r + 1) p (branch (Function.update c (digit r k) t)) := by
  intro j
  by_cases hj : j = digit r k
  · rw [hj, Function.update_self]
    exact ht
  · rw [Function.update_of_ne hj]
    exact hc j

/-- The children of the node that a leaf is split into. -/
theorem wf_split {r p k : ℕ} (hk : k / b ^ (r + 1) = p) (v : V) :
    ∀ j : Fin b, WF r (b * p + j)
      (Function.update (fun _ => nil) (digit r k) (leaf k v) j : Trie b V) := by
  apply wf_branch.mp
  apply WF.update
  · intro j
    exact wf_nil _ _
  · rw [wf_leaf]
    exact div_pow_eq hk

theorem wf_upsert {k : ℕ} (f : Option V → V) {r p : ℕ} {t : Trie b V} (hk : k / b ^ r = p)
    (ht : WF r p t) : WF r p (upsert k f r t) := by
  induction r generalizing p t with
  | zero =>
    rcases t with _ | ⟨k', v⟩ | c
    · simpa using hk
    · -- at height 0 there is only one key under `p`
      have hk' : k' = k := by simpa using (wf_leaf.mp ht).trans hk.symm
      rw [hk', upsert_leaf_self]
      simpa using hk
    · exact ht.elim
  | succ r ih =>
    have hd := div_pow_eq hk
    rcases t with _ | ⟨k', v⟩ | c
    · simpa using hk
    · by_cases h : k = k'
      · rw [← h, upsert_leaf_self, wf_leaf]
        exact hk
      · rw [upsert_leaf_ne h, upsert_branch]
        have hs := wf_split (wf_leaf.mp ht) v
        exact WF.update hs (ih hd (hs _))
    · rw [upsert_branch]
      exact WF.update ht (ih hd (ht _))

theorem wf_delete {k r p : ℕ} {t : Trie b V} (ht : WF r p t) : WF r p (delete k r t) := by
  induction r generalizing p t with
  | zero =>
    rcases t with _ | ⟨k', v⟩ | c
    · simp
    · rw [delete_leaf]
      split
      · simp
      · exact ht
    · exact ht.elim
  | succ r ih =>
    rcases t with _ | ⟨k', v⟩ | c
    · simp
    · rw [delete_leaf]
      split
      · simp
      · exact ht
    · rw [delete_branch]
      exact WF.update ht (ih (ht _))

/-! ## Contents -/

/-- Looking past a changed child. -/
theorem find_update (r k k' : ℕ) (c : Fin b → Trie b V) (t : Trie b V) :
    find (r + 1) k' (branch (Function.update c (digit r k) t))
      = if (digit r k' : Fin b) = digit r k then find r k' t
        else find r k' (c (digit r k')) := by
  rw [find_branch, Function.update_apply]
  split <;> rfl

/-- A trie holds no key that is not under its digits. -/
theorem find_eq_none {r p k : ℕ} {t : Trie b V} (ht : WF r p t) (hk : k / b ^ r ≠ p) :
    find r k t = none := by
  induction r generalizing p t with
  | zero =>
    rcases t with _ | ⟨k', v⟩ | c
    · simp
    · rw [find_leaf, if_neg]
      intro h
      exact hk (h ▸ wf_leaf.mp ht)
    · rfl
  | succ r ih =>
    rcases t with _ | ⟨k', v⟩ | c
    · simp
    · rw [find_leaf, if_neg]
      intro h
      exact hk (h ▸ wf_leaf.mp ht)
    · apply ih (ht (digit r k))
      rw [div_pow_eq (b := b) rfl]
      intro h
      exact hk (Nat.eq_of_mul_eq_mul_left (Nat.pos_of_neZero b) (Nat.add_right_cancel h))

/-- A node of height 0 under a key's digits is that key's only place. -/
theorem find_split {r k k' : ℕ} (v : V) :
    find (r + 1) k (branch (Function.update (fun _ => nil) (digit r k') (leaf k' v)) : Trie b V)
      = if k = k' then some v else none := by
  rw [find_update]
  split
  · rw [find_leaf]
  · rename_i hd
    rw [if_neg, find_nil]
    intro h
    exact hd (by rw [h])

/-- The entry of `k` is what `f` makes of the old one; every other entry is kept. -/
theorem find_upsert {k : ℕ} (f : Option V → V) {r p : ℕ} {t : Trie b V} (hk : k / b ^ r = p)
    (ht : WF r p t) (k' : ℕ) :
    find r k' (upsert k f r t) = if k' = k then some (f (find r k t)) else find r k' t := by
  induction r generalizing p t with
  | zero =>
    rcases t with _ | ⟨k₀, v⟩ | c
    · simp
    · have hk₀ : k₀ = k := by simpa using (wf_leaf.mp ht).trans hk.symm
      rw [hk₀, upsert_leaf_self]
      simp only [find_leaf, if_true]
      split <;> rfl
    · exact ht.elim
  | succ r ih =>
    have hd := div_pow_eq hk
    -- the case of an inner node, which a leaf with another key becomes, too
    have node : ∀ c : Fin b → Trie b V, (∀ j : Fin b, WF r (b * p + j) (c j)) →
        find (r + 1) k' (upsert k f (r + 1) (branch c))
          = if k' = k then some (f (find (r + 1) k (branch c)))
            else find (r + 1) k' (branch c) := by
      intro c hc
      rw [upsert_branch, find_update, ih hd (hc _)]
      by_cases h : k' = k
      · simp [h]
      · by_cases hj : (digit r k' : Fin b) = digit r k
        · simp [h, hj]
        · simp [h, hj]
    rcases t with _ | ⟨k₀, v⟩ | c
    · simp
    · by_cases h : k = k₀
      · rw [← h, upsert_leaf_self]
        simp only [find_leaf, if_true]
        split <;> rfl
      · rw [upsert_leaf_ne h, node _ (wf_split (wf_leaf.mp ht) v)]
        simp only [find_split, find_leaf]
    · exact node c ht

/-- The entry of `k` is gone; every other entry is kept. -/
theorem find_delete {k r p : ℕ} {t : Trie b V} (ht : WF r p t) (k' : ℕ) :
    find r k' (delete k r t) = if k' = k then none else find r k' t := by
  have leaf_case : ∀ (r k₀ : ℕ) (v : V), find r k' (delete k r (leaf k₀ v : Trie b V))
      = if k' = k then none else find r k' (leaf k₀ v : Trie b V) := by
    intro r k₀ v
    rw [delete_leaf]
    by_cases h : k = k₀
    · by_cases h' : k' = k <;> simp_all
    · by_cases h' : k' = k <;> simp_all
  induction r generalizing p t with
  | zero =>
    rcases t with _ | ⟨k₀, v⟩ | c
    · simp
    · exact leaf_case 0 k₀ v
    · exact ht.elim
  | succ r ih =>
    rcases t with _ | ⟨k₀, v⟩ | c
    · simp
    · exact leaf_case (r + 1) k₀ v
    · rw [delete_branch, find_update, ih (ht _)]
      by_cases h : k' = k
      · simp [h]
      · by_cases hj : (digit r k' : Fin b) = digit r k <;> simp [h, hj]

/-- A property of all entries, in terms of what can be found. -/
theorem all_of_find {P : ℕ → V → Prop} {r p : ℕ} {t : Trie b V} (ht : WF r p t)
    (h : ∀ k v, find r k t = some v → P k v) : All P t := by
  induction r generalizing p t with
  | zero =>
    rcases t with _ | ⟨k, v⟩ | c
    · trivial
    · exact h k v (by simp)
    · exact ht.elim
  | succ r ih =>
    rcases t with _ | ⟨k, v⟩ | c
    · trivial
    · exact h k v (by simp)
    · intro j
      apply ih (ht j)
      intro k v hk
      apply h
      have hd : k / b ^ r = b * p + j := by
        by_contra hne
        rw [find_eq_none (ht j) hne] at hk
        cases hk
      rw [find_branch, digit_of_div hd]
      exact hk

/-! ## Tries built by insertions only -/

/-- Every node holds two keys. -/
def Tight : ℕ → Trie b V → Prop
  | _, nil => True
  | _, leaf _ _ => True
  | 0, branch _ => True
  | r + 1, branch c =>
    (∃ k k', k ≠ k' ∧ find (r + 1) k (branch c) ≠ none ∧ find (r + 1) k' (branch c) ≠ none)
      ∧ ∀ j, Tight r (c j)

@[simp] theorem tight_nil (r : ℕ) : Tight r (nil : Trie b V) := by
  unfold Tight
  trivial

@[simp] theorem tight_leaf (r k : ℕ) (v : V) : Tight r (leaf k v : Trie b V) := by
  unfold Tight
  trivial

/-- Inserting below a node keeps its children tight. -/
theorem tight_update {r k : ℕ} {c : Fin b → Trie b V} {t : Trie b V} (hc : ∀ j, Tight r (c j))
    (ht : Tight r t) (j : Fin b) : Tight r (Function.update c (digit r k) t j) := by
  by_cases hj : j = digit r k
  · rw [hj, Function.update_self]
    exact ht
  · rw [Function.update_of_ne hj]
    exact hc j

/-- A key that was there is still there after an insertion. -/
theorem find_upsert_ne_none {k : ℕ} (f : Option V → V) {r p : ℕ} {t : Trie b V}
    (hk : k / b ^ r = p) (ht : WF r p t) {k' : ℕ} (hk' : find r k' t ≠ none) :
    find r k' (upsert k f r t) ≠ none := by
  rw [find_upsert f hk ht]
  split
  · exact Option.some_ne_none _
  · exact hk'

theorem tight_upsert {k : ℕ} (f : Option V → V) {r p : ℕ} {t : Trie b V} (hk : k / b ^ r = p)
    (hwf : WF r p t) (ht : Tight r t) : Tight r (upsert k f r t) := by
  induction r generalizing p t with
  | zero =>
    rcases t with _ | ⟨k', v⟩ | c
    · simp
    · have hk' : k' = k := by simpa using (wf_leaf.mp hwf).trans hk.symm
      rw [hk', upsert_leaf_self]
      simp
    · exact hwf.elim
  | succ r ih =>
    have hd := div_pow_eq hk
    rcases t with _ | ⟨k', v⟩ | c
    · simp
    · by_cases h : k = k'
      · rw [← h, upsert_leaf_self]
        simp
      · -- the two keys of the new node are the ones that met in the leaf
        have hs := wf_split (wf_leaf.mp hwf) v
        have htight : ∀ j : Fin b,
            Tight r (Function.update (fun _ => nil) (digit r k') (leaf k' v) j : Trie b V) :=
          tight_update (fun _ => tight_nil r) (tight_leaf r k' v)
        rw [upsert_leaf_ne h]
        refine ⟨⟨k, k', h, ?_, ?_⟩, tight_update htight (ih hd (hs _) (htight _))⟩
        · rw [← upsert_branch, find_upsert f hk (wf_branch.mpr hs), if_pos rfl]
          exact Option.some_ne_none _
        · rw [← upsert_branch]
          apply find_upsert_ne_none f hk (wf_branch.mpr hs)
          rw [find_split, if_pos rfl]
          exact Option.some_ne_none _
    · obtain ⟨⟨k₁, k₂, hne, h₁, h₂⟩, hc⟩ := ht
      refine ⟨⟨k₁, k₂, hne, ?_, ?_⟩, tight_update hc (ih hd (hwf _) (hc _))⟩
      · exact find_upsert_ne_none f hk hwf h₁
      · exact find_upsert_ne_none f hk hwf h₂

/-- The digits above a key that is there. -/
theorem div_of_find {r p k : ℕ} {t : Trie b V} (ht : WF r p t) (hk : find r k t ≠ none) :
    k / b ^ r = p := by
  by_contra h
  exact hk (find_eq_none ht h)

/-- A leaf at height 0 in a tight trie: two keys that differ in the last digit only. -/
theorem exists_pair_of_not_shallow {r p : ℕ} {t : Trie b V} (hwf : WF (r + 1) p t)
    (ht : Tight (r + 1) t) (hs : ¬ Shallow (r + 1) t) :
    ∃ k k', k ≠ k' ∧ find (r + 1) k t ≠ none ∧ find (r + 1) k' t ≠ none ∧ k / b = k' / b := by
  induction r generalizing p t with
  | zero =>
    rcases t with _ | ⟨k, v⟩ | c
    · exact (hs (shallow_nil _)).elim
    · exact (hs (shallow_leaf.mpr (by omega))).elim
    · obtain ⟨k₁, k₂, hne, h₁, h₂⟩ := ht.1
      have hd := (div_of_find hwf h₁).trans (div_of_find hwf h₂).symm
      rw [zero_add, pow_one] at hd
      exact ⟨k₁, k₂, hne, h₁, h₂, hd⟩
  | succ r ih =>
    rcases t with _ | ⟨k, v⟩ | c
    · exact (hs (shallow_nil _)).elim
    · exact (hs (shallow_leaf.mpr (by omega))).elim
    · obtain ⟨j, hj⟩ := not_forall.mp hs
      obtain ⟨k₁, k₂, hne, h₁, h₂, hd⟩ := ih (hwf j) (ht.2 j) hj
      refine ⟨k₁, k₂, hne, ?_, ?_, hd⟩
      · rw [find_branch, digit_of_div (div_of_find (hwf j) h₁)]
        exact h₁
      · rw [find_branch, digit_of_div (div_of_find (hwf j) h₂)]
        exact h₂

theorem eq_of_find_leaf {r k k' : ℕ} {v : V} (h : find r k (leaf k' v : Trie b V) ≠ none) :
    k = k' := by
  by_contra hne
  exact h (by rw [find_leaf, if_neg hne])

/-- The height at which the path of a key ends. -/
def leafHeight : ℕ → ℕ → Trie b V → ℕ
  | r, _, nil => r
  | r, _, leaf _ _ => r
  | 0, _, branch _ => 0
  | r + 1, k, branch c => leafHeight r k (c (digit r k))

@[simp] theorem leafHeight_leaf (r k k' : ℕ) (v : V) :
    leafHeight r k (leaf k' v : Trie b V) = r := by cases r <;> rfl

@[simp] theorem leafHeight_branch (r k : ℕ) (c : Fin b → Trie b V) :
    leafHeight (r + 1) k (branch c) = leafHeight r k (c (digit r k)) := rfl

theorem leafHeight_le (r k : ℕ) (t : Trie b V) : leafHeight r k t ≤ r := by
  induction r generalizing t with
  | zero => rcases t with _ | ⟨k', v⟩ | c <;> exact le_rfl
  | succ r ih =>
    rcases t with _ | ⟨k', v⟩ | c
    · exact le_rfl
    · exact le_rfl
    · exact (ih _).trans (Nat.le_succ r)

/-- A key that is there is alone below the height at which its path ends. -/
theorem find_of_leafHeight {r k q : ℕ} {t : Trie b V} (hk : find r k t ≠ none) (hne : q ≠ k)
    (hq : q / b ^ leafHeight r k t = k / b ^ leafHeight r k t) : find r q t = none := by
  induction r generalizing t with
  | zero =>
    rcases t with _ | ⟨k', v⟩ | c
    · rfl
    · rw [find_leaf, if_neg (eq_of_find_leaf hk ▸ hne)]
    · rfl
  | succ r ih =>
    rcases t with _ | ⟨k', v⟩ | c
    · rfl
    · rw [find_leaf, if_neg (eq_of_find_leaf hk ▸ hne)]
    · rw [leafHeight_branch] at hq
      -- the paths of the two keys agree in the digit at this height
      obtain ⟨e, he⟩ := Nat.exists_eq_add_of_le (leafHeight_le r k (c (digit r k)))
      have hdiv : q / b ^ r = k / b ^ r := by
        rw [he, pow_add, ← Nat.div_div_eq_div_mul, ← Nat.div_div_eq_div_mul, hq]
      have hdig : (digit r q : Fin b) = digit r k := by rw [digit, digit, hdiv]
      rw [find_branch, hdig]
      exact ih hk hq

theorem leafHeight_pos {r k : ℕ} {t : Trie b V} (hs : Shallow r t) (hk : find r k t ≠ none) :
    0 < leafHeight r k t := by
  induction r generalizing t with
  | zero =>
    rcases t with _ | ⟨k', v⟩ | c
    · exact absurd (find_nil _ _) hk
    · exact hs
    · exact absurd rfl hk
  | succ r ih =>
    rcases t with _ | ⟨k', v⟩ | c
    · exact absurd (find_nil _ _) hk
    · exact Nat.succ_pos r
    · exact ih (hs (digit r k)) hk

/-- In a trie without leaves at height 0, keys that agree in all but the last digit are equal. -/
theorem eq_of_shallow {r p k k' : ℕ} {t : Trie b V} (hwf : WF (r + 1) p t)
    (hs : Shallow (r + 1) t) (hk : find (r + 1) k t ≠ none) (hk' : find (r + 1) k' t ≠ none)
    (hd : k / b = k' / b) : k = k' := by
  induction r generalizing p t with
  | zero =>
    rcases t with _ | ⟨k₀, v⟩ | c
    · exact (hk (find_nil _ _)).elim
    · exact (eq_of_find_leaf hk).trans (eq_of_find_leaf hk').symm
    · -- below is height 0, where there are no leaves
      exfalso
      apply hk
      have hsj := hs (digit 0 k)
      rw [find_branch]
      rcases hc : c (digit 0 k) with _ | ⟨k₀, v⟩ | c'
      · rfl
      · rw [hc] at hsj
        exact absurd hsj (by simp)
      · rfl
  | succ r ih =>
    rcases t with _ | ⟨k₀, v⟩ | c
    · exact (hk (find_nil _ _)).elim
    · exact (eq_of_find_leaf hk).trans (eq_of_find_leaf hk').symm
    · have hdig : (digit (r + 1) k : Fin b) = digit (r + 1) k' := by
        rw [digit, digit, pow_succ', ← Nat.div_div_eq_div_mul, ← Nat.div_div_eq_div_mul, hd]
      rw [find_branch] at hk hk'
      rw [← hdig] at hk'
      exact ih (hwf _) (hs _) hk hk'

/-- A node of a tight trie holds a key besides any given one. -/
theorem Tight.exists_ne {r : ℕ} {c : Fin b → Trie b V} (h : Tight (r + 1) (branch c)) (k : ℕ) :
    ∃ k', k' ≠ k ∧ find (r + 1) k' (branch c) ≠ none := by
  obtain ⟨k₁, k₂, hne, h₁, h₂⟩ := h.1
  by_cases hk : k₁ = k
  · exact ⟨k₂, fun heq => hne (hk.trans heq.symm), h₂⟩
  · exact ⟨k₁, hk, h₁⟩

/-- A single entry and a node that holds two have different contents. -/
theorem Tight.find_ne_leaf {r k : ℕ} {v : V} {c : Fin b → Trie b V}
    (h : Tight (r + 1) (branch c)) :
    ¬ ∀ k', find (r + 1) k' (branch c) = find (r + 1) k' (leaf k v : Trie b V) := by
  intro heq
  obtain ⟨k', hne, hk'⟩ := h.exists_ne k
  rw [heq k', find_leaf, if_neg hne] at hk'
  exact hk' rfl

/-- Two leaves with the same contents. -/
theorem leaf_ext {r k k' : ℕ} {v v' : V}
    (h : ∀ i, find r i (leaf k v : Trie b V) = find r i (leaf k' v' : Trie b V)) :
    (leaf k v : Trie b V) = leaf k' v' := by
  have hk := h k
  rw [find_leaf, find_leaf, if_pos rfl] at hk
  split_ifs at hk with heq
  obtain rfl := Option.some.inj hk
  rw [heq]

/-- An empty trie and a leaf have different contents. -/
theorem find_leaf_ne_nil {r k : ℕ} {v : V} :
    ¬ ∀ i, find r i (leaf k v : Trie b V) = find r i (nil : Trie b V) := by
  intro h
  have hk := h k
  rw [find_leaf, if_pos rfl, find_nil] at hk
  cases hk

/-- The children of a node, by the contents of the node. -/
theorem find_child_eq {r p : ℕ} {c c' : Fin b → Trie b V} (hc : WF (r + 1) p (branch c))
    (hc' : WF (r + 1) p (branch c'))
    (h : ∀ k, find (r + 1) k (branch c) = find (r + 1) k (branch c')) (j : Fin b) (k : ℕ) :
    find r k (c j) = find r k (c' j) := by
  by_cases hk : k / b ^ r = b * p + j
  · have hd := digit_of_div hk
    have hfind := h k
    rw [find_branch, find_branch, hd] at hfind
    exact hfind
  · rw [find_eq_none (hc j) hk, find_eq_none (hc' j) hk]

/-- A tight trie is determined by its contents. -/
theorem ext_of_tight {r p : ℕ} {t t' : Trie b V} (hwf : WF r p t) (hwf' : WF r p t')
    (ht : Tight r t) (ht' : Tight r t') (h : ∀ k, find r k t = find r k t') : t = t' := by
  induction r generalizing p t t' with
  | zero =>
    rcases t with _ | ⟨k, v⟩ | c
    · rcases t' with _ | ⟨k', v'⟩ | c'
      · rfl
      · exact (find_leaf_ne_nil fun i => (h i).symm).elim
      · exact hwf'.elim
    · rcases t' with _ | ⟨k', v'⟩ | c'
      · exact (find_leaf_ne_nil h).elim
      · exact leaf_ext h
      · exact hwf'.elim
    · exact hwf.elim
  | succ r ih =>
    -- a tight branch has two keys at least, so it is not the same as a leaf or nothing
    rcases t with _ | ⟨k, v⟩ | c
    · rcases t' with _ | ⟨k', v'⟩ | c'
      · rfl
      · exact (find_leaf_ne_nil fun i => (h i).symm).elim
      · obtain ⟨k', -, hk'⟩ := ht'.exists_ne 0
        exact (hk' ((h k').symm.trans (find_nil _ _))).elim
    · rcases t' with _ | ⟨k', v'⟩ | c'
      · exact (find_leaf_ne_nil h).elim
      · exact leaf_ext h
      · exact (ht'.find_ne_leaf fun i => (h i).symm).elim
    · rcases t' with _ | ⟨k', v'⟩ | c'
      · obtain ⟨k', -, hk'⟩ := ht.exists_ne 0
        exact (hk' ((h k').trans (find_nil _ _))).elim
      · exact (ht.find_ne_leaf h).elim
      · congr 1
        ext j : 1
        exact ih (hwf j) (hwf' j) (ht.2 j) (ht'.2 j) (find_child_eq hwf hwf' h j)

end

end Trie
