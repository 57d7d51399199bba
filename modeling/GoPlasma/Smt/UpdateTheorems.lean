import GoPlasma.Smt.Represents

/-!
# Insertion, lookup and deletion on the represented trie

One theorem for each of the three walks along a key: `insert` is `Trie.upsert` with the entry
update of the contents, `get` is `Trie.find`, and `delete` is `Trie.delete`, the last one
under a condition on the nodes of the path.
-/

namespace GoPlasma.Smt

variable {keccak : Bytes → Hash} {R : ℕ → Prop} {B : Backing} {pcs : Reader}

/-- A new tree. -/
theorem new_represents (hclean : B.clean nkeypieces [] fun _ => .nil) (hR : ¬ R nkeypieces) :
    Represents keccak R B nkeypieces SparseMerkleTree.new (.branch fun _ => .nil) := by
  apply Loaded.represents
  refine ⟨rfl, rfl, fun h => (hR h).elim, rfl, fun _ => hclean, ?_⟩
  intro j
  exact represents_nil.mpr rfl

/-! ## Insertion -/

/-- A new terminal node. -/
theorem newTerminal_represents (r : ℕ) (k : Key) (v : Bytes) (storageBytes blockNum : UInt64) :
    Represents keccak Stale B r (newTerminal (levelOf r) k v storageBytes blockNum)
      (.leaf (num k) ⟨v, storageBytes, blockNum⟩) :=
  represents_leaf.mpr ⟨_, rfl, ⟨rfl, rfl, rfl, rfl, rfl, rfl, rfl⟩, False.elim⟩

/-- A terminal that has just been turned into an inner node. -/
theorem split_represents {r k : ℕ} {e : Entry} {d : NodeData} (hd : TerminalData (r + 1) k e d) :
    Represents keccak Stale B (r + 1)
      (.mk { d with dirty := true, terminal := false } fun _ => .nil) (.branch fun _ => .nil) := by
  apply Loaded.represents
  refine ⟨hd.level, rfl, False.elim, hd.loaded, ?_, ?_⟩
  · intro hdirty
    cases hdirty
  · intro j
    exact represents_nil.mpr rfl

/-- Replacing one child. -/
theorem represents_update {r : ℕ} {c : Fin 16 → Node} {ts : Fin 16 → EntryTrie} (idx : Fin 16)
    {m : Node} {t : EntryTrie} (hc : ∀ j, Represents keccak R B r (c j) (ts j))
    (hm : Represents keccak R B r m t) (j : Fin 16) :
    Represents keccak R B r (Function.update c idx m j) (Function.update ts idx t j) := by
  by_cases hj : j = idx
  · rw [hj, Function.update_self, Function.update_self]
    exact hm
  · rw [Function.update_of_ne hj, Function.update_of_ne hj]
    exact hc j

/-- Changing one child of a loaded node that is marked dirty. -/
theorem Loaded.update {r : ℕ} {d : NodeData} {c : Fin 16 → Node} {ts : Fin 16 → EntryTrie}
    (h : Loaded keccak Stale B r d c ts) {idx : Fin 16} {m : Node} {t : EntryTrie}
    (hm : Represents keccak Stale B r m t) (storageBytes : UInt64) :
    Represents keccak Stale B (r + 1)
      (.mk { d with dirty := true, storageBytes := storageBytes } (Function.update c idx m))
      (.branch (Function.update ts idx t)) := by
  apply Loaded.represents
  refine ⟨h.level, h.terminal, False.elim, h.loaded, ?_, represents_update _ h.children hm⟩
  intro hdirty
  cases hdirty

/-- The number of a key decides whether it is the key of a terminal. -/
theorem TerminalData.key_eq_iff {r k' : ℕ} {e : Entry} {d : NodeData} (hd : TerminalData r k' e d)
    (k : Key) : d.key = k ↔ num k = k' := by
  rw [← hd.key]
  exact ⟨fun h => by rw [h], fun h => (num_inj h).symm⟩

/-- A terminal whose own key is inserted again. -/
theorem updateTerminal_represents {r : ℕ} {e : Entry} {d : NodeData} {k : Key}
    (hd : TerminalData r (num k) e d) (v : Bytes) (sb bn : UInt64) :
    Represents keccak Stale B r
      (if d.chunkHash = v then .mk d fun _ => .nil
        else .mk { d with
          dirty := true, chunkHash := v, blockNum := bn, storageBytes := d.storageBytes + sb }
          fun _ => .nil)
      (.leaf (num k) (updateEntry v sb bn (some e))) := by
  rw [represents_leaf, hd.value]
  by_cases hv : e.value = v
  · simp only [updateEntry, if_pos hv]
    exact ⟨d, rfl, hd, False.elim⟩
  · simp only [updateEntry, if_neg hv]
    refine ⟨_, rfl, ⟨hd.level, hd.terminal, hd.loaded, hd.key, rfl, ?_, rfl⟩, False.elim⟩
    simp only [hd.storageBytes]

/-- `insertChild` on a node of height `r`, given what `insert` does on inner nodes of that
height. -/
theorem insertChild_represents {r p : ℕ} {k : Key}
    (ins : Key → Bytes → UInt64 → UInt64 → Node → Go Node)
    (hins : ∀ {n : Node} {ts : Fin 16 → EntryTrie} {k : Key} (v : Bytes) (sb bn : UInt64),
      Represents keccak Stale B r n (.branch ts) → Trie.WF r p (.branch ts) →
      num k / 16 ^ r = p → ∃ n', ins k v sb bn n = .ok n' ∧
        Represents keccak Stale B r n' (Trie.upsert (num k) (updateEntry v sb bn) r (.branch ts)))
    {n : Node} {t : EntryTrie} (hn : Represents keccak Stale B r n t) (hwf : t.WF r p)
    (hk : num k / 16 ^ r = p) (v : Bytes) (sb bn : UInt64) :
    ∃ n', insertChild ins (levelOf (r + 1)) k v sb bn n = .ok n' ∧
      Represents keccak Stale B r n' (Trie.upsert (num k) (updateEntry v sb bn) r t) := by
  rcases t with _ | ⟨k', e⟩ | ts
  · rw [represents_nil.mp hn, Trie.upsert_nil, insertChild, levelOf_sub]
    exact ⟨_, rfl, newTerminal_represents r k v sb bn⟩
  · obtain ⟨d, rfl, hd, -⟩ := represents_leaf.mp hn
    rw [insertChild, if_pos hd.terminal]
    by_cases hkey : num k = k'
    · subst hkey
      rw [if_pos ((hd.key_eq_iff k).mpr rfl), Trie.upsert_leaf_self]
      exact ⟨_, rfl, updateTerminal_represents hd v sb bn⟩
    · rw [if_neg fun h => hkey ((hd.key_eq_iff k).mp h)]
      have hk' : k' / 16 ^ r = p := Trie.wf_leaf.mp hwf
      rcases r with _ | r
      · -- after the last piece there is no second key
        simp only [pow_zero, Nat.div_one] at hk hk'
        exact (hkey (hk.trans hk'.symm)).elim
      · -- first the old key, then the new one, into the node that the terminal was
        rw [← hd.key] at hk'
        obtain ⟨m, hm, hmrep⟩ := hins d.chunkHash d.storageBytes d.blockNum
          (split_represents hd) (fun j => Trie.wf_nil _ _) hk'
        have hold : updateEntry d.chunkHash d.storageBytes d.blockNum none = e := by
          rw [updateEntry, hd.value, hd.storageBytes, hd.blockNum]
        rw [Trie.upsert_branch, Trie.upsert_nil, hd.key, hold] at hmrep
        obtain ⟨m', hm', hmrep'⟩ := hins v sb bn hmrep (Trie.wf_split (Trie.wf_leaf.mp hwf) e) hk
        refine ⟨m', ?_, ?_⟩
        · simp only [hm, bind, Except.bind, hm']
        · rw [Trie.upsert_leaf_ne hkey]
          exact hmrep'
  · obtain ⟨d, c, rfl, hterm⟩ := hn.inner
    rw [insertChild, if_neg (by simp [hterm])]
    exact hins v sb bn hn hwf hk

/-- `insert` into an inner node of height `r`. -/
theorem insert_represents (hB : B.Serves keccak Stale pcs) {r : ℕ} (hr : r ≤ nkeypieces) {p : ℕ}
    {n : Node} {ts : Fin 16 → EntryTrie} {k : Key} (v : Bytes) (sb bn : UInt64)
    (hn : Represents keccak Stale B r n (.branch ts)) (hwf : Trie.WF r p (.branch ts))
    (hk : num k / 16 ^ r = p) :
    ∃ n', insert pcs r k v sb bn n = .ok n' ∧ Represents keccak Stale B r n'
      (Trie.upsert (num k) (updateEntry v sb bn) r (.branch ts)) := by
  induction r generalizing p n ts k v sb bn with
  | zero => exact hn.elim
  | succ r ih =>
    obtain ⟨d, c, c', rfl, hload, hl⟩ := load_represents hB hn
    obtain ⟨m, hm, hmrep⟩ := insertChild_represents (insert pcs r) (ih (by omega))
      (hl.children (Trie.digit r (num k))) (hwf _) (Trie.div_pow_eq hk) v sb bn
    rw [← hl.level] at hm
    unfold insert
    simp only [hload, bind, Except.bind, keypiece_eq_digit k hr, hm]
    exact ⟨_, rfl, hl.update hmrep _⟩

/-- An insertion leaves its value. -/
theorem updateEntry_value (v : Bytes) (sb bn : UInt64) (e : Option Entry) :
    (updateEntry v sb bn e).value = v := by
  rcases e with _ | e
  · rfl
  · rw [updateEntry]
    split_ifs with hv
    · exact hv
    · rfl

/-! ## Lookup -/

/-- `get` finds what the trie holds, and changes nothing that the node stands for. -/
theorem get_represents (hB : B.Serves keccak R pcs) {r : ℕ} (hr : r ≤ nkeypieces) {n : Node}
    {ts : Fin 16 → EntryTrie} (hn : Represents keccak R B r n (.branch ts)) (k : Key) :
    ∃ n', get pcs r k n = .ok (Trie.find r (num k) (.branch ts), n')
      ∧ Represents keccak R B r n' (.branch ts) := by
  induction r generalizing n ts with
  | zero => exact hn.elim
  | succ r ih =>
    obtain ⟨d, c, c', rfl, hload, hl⟩ := load_represents hB hn
    have hchild := hl.children (Trie.digit r (num k))
    rw [Trie.find_branch]
    unfold get
    simp only [hload, bind, Except.bind, keypiece_eq_digit k hr]
    -- the child is nothing, a terminal or a subtree as the trie says
    rcases ht : ts (Trie.digit r (num k)) with _ | ⟨k', e⟩ | ts'
    · rw [ht, represents_nil] at hchild
      simp only [hchild, Trie.find_nil]
      exact ⟨_, rfl, hl.represents⟩
    · rw [ht, represents_leaf] at hchild
      obtain ⟨cd, hc, hd, -⟩ := hchild
      have hiff : k = cd.key ↔ num k = k' := eq_comm.trans (hd.key_eq_iff k)
      simp only [hc, hd.terminal, if_true, Trie.find_leaf, hiff]
      refine ⟨_, ?_, hl.represents⟩
      by_cases hkey : num k = k'
      · simp only [if_pos hkey, hd.value, hd.storageBytes, hd.blockNum]
      · simp only [if_neg hkey]
    · rw [ht] at hchild
      obtain ⟨m, hm, hmrep⟩ := ih (by omega) hchild
      obtain ⟨cd, cc, hc, hterm⟩ := hchild.inner
      rw [hc] at hm
      simp only [hc, hterm, Bool.false_eq_true, if_false, hm]
      have hchildren := represents_update (Trie.digit r (num k)) hl.children hmrep
      rw [← ht, Function.update_eq_self] at hchildren
      refine ⟨_, rfl, Loaded.represents ?_⟩
      exact ⟨hl.level, hl.terminal, hl.root, hl.loaded, hl.clean, hchildren⟩

/-! ## Deletion -/

/-- No node is unloaded, and nothing is asked of a node that is not dirty. -/
def Backing.InMemory (B : Backing) : Prop :=
  ∀ r h ts, B.clean r h ts ∧ ¬ B.unloaded r h ts

/-- The nodes that `delete` walks through are loaded, and those above the node that loses a
child are dirty already: `delete` marks only that last one. -/
def pathMarked : ℕ → Key → Node → Bool
  | 0, _, _ => true
  | _ + 1, _, .nil => true
  | r + 1, k, .mk d c =>
    !d.unloaded &&
      match c (keypiece k (nkeypieces - (r + 1))) with
      | .nil => true
      | .mk cd cc => cd.terminal || (d.dirty && pathMarked r k (.mk cd cc))

/-- `delete` never reports success. -/
theorem delete_ok (r : ℕ) (k : Key) (n : Node) : (delete r k n).2 = false := by
  induction r generalizing n with
  | zero => rfl
  | succ r ih =>
    rcases n with _ | ⟨d, c⟩
    · rfl
    · rw [delete]
      rcases c (keypiece k (nkeypieces - (r + 1))) with _ | ⟨cd, cc⟩
      · simp only
      · simp only
        split_ifs
        · rfl
        · rfl
        · exact ih _

/-- `delete` below an inner child: the node itself keeps its mark. -/
theorem delete_inner {r : ℕ} {k : Key} {d cd : NodeData} {c cc : Fin 16 → Node}
    (hc : c (keypiece k (nkeypieces - (r + 1))) = .mk cd cc) (hterm : cd.terminal = false) :
    (delete (r + 1) k (.mk d c)).1
      = .mk d (Function.update c (keypiece k (nkeypieces - (r + 1)))
        (delete r k (.mk cd cc)).1) := by
  rw [delete]
  simp only [hc, hterm, Bool.false_eq_true, if_false, delete_ok, Bool.or_false]

/-- `delete` of a key that is not there changes nothing. -/
theorem delete_absent {r : ℕ} (hr : r ≤ nkeypieces) {n : Node} {ts : Fin 16 → EntryTrie}
    (hn : Represents keccak R B r n (.branch ts)) {k : Key}
    (hk : Trie.find r (num k) (.branch ts) = none) : (delete r k n).1 = n := by
  induction r generalizing n ts with
  | zero => exact hn.elim
  | succ r ih =>
    rw [Trie.find_branch, ← keypiece_eq_digit k hr] at hk
    obtain ⟨d, c, rfl, -, -, -, ⟨-, -, hc, -⟩ | ⟨-, -, hc⟩⟩ := hn
    · -- an unloaded node has no children in memory
      unfold delete
      simp only [hc]
    · have hchild := hc (keypiece k (nkeypieces - (r + 1)))
      rcases ht : ts (keypiece k (nkeypieces - (r + 1))) with _ | ⟨k', e⟩ | ts'
      · rw [ht, represents_nil] at hchild
        unfold delete
        simp only [hchild]
      · rw [ht, represents_leaf] at hchild
        obtain ⟨cd, hcd, hd, -⟩ := hchild
        rw [ht, Trie.find_leaf] at hk
        have hne : ¬ k = cd.key := by
          intro h
          rw [if_pos ((hd.key_eq_iff k).mp h.symm)] at hk
          cases hk
        unfold delete
        simp only [hcd, hd.terminal, if_true, if_neg hne]
      · rw [ht] at hchild hk
        obtain ⟨cd, cc, hcd, hterm⟩ := hchild.inner
        rw [delete_inner hcd hterm, ← hcd, ih (by omega) hchild hk, Function.update_eq_self]

/-- `delete` along a path whose nodes are loaded and marked. -/
theorem delete_represents {r : ℕ} (hr : r ≤ nkeypieces) {n : Node} {ts : Fin 16 → EntryTrie}
    {k : Key} (hn : Represents keccak Stale B r n (.branch ts))
    (hpath : B.InMemory ∨ pathMarked r k n = true) :
    Represents keccak Stale B r (delete r k n).1 (Trie.delete (num k) r (.branch ts)) := by
  induction r generalizing n ts with
  | zero => exact hn.elim
  | succ r ih =>
    obtain ⟨d, c, rfl, hlev, hterm, hroot, hmode⟩ := hn
    have hl : Loaded keccak Stale B r d c ts := by
      rcases hmode with ⟨hu, -, -, hb⟩ | ⟨hu, hs, hc⟩
      · rcases hpath with hmem | hmark
        · exact ((hmem _ _ _).2 hb).elim
        · simp [pathMarked, hu] at hmark
      · exact ⟨hlev, hterm, hroot, hu, hs, hc⟩
    have hidx := keypiece_eq_digit k hr
    have hchild := hl.children (keypiece k (nkeypieces - (r + 1)))
    rw [Trie.delete_branch, ← hidx]
    -- no child, a terminal, which goes if it has the key, or an inner node
    rcases ht : ts (keypiece k (nkeypieces - (r + 1))) with _ | ⟨k', e⟩ | ts'
    · rw [ht, represents_nil] at hchild
      rw [Trie.delete_nil, ← ht, Function.update_eq_self]
      unfold delete
      simp only [hchild]
      exact hl.represents
    · rw [ht, represents_leaf] at hchild
      obtain ⟨cd, hcd, hd, -⟩ := hchild
      have hiff : k = cd.key ↔ num k = k' := eq_comm.trans (hd.key_eq_iff k)
      unfold delete
      simp only [hcd, hd.terminal, if_true, Trie.delete_leaf, hiff]
      by_cases hkey : num k = k'
      · simp only [if_pos hkey]
        exact hl.update (represents_nil.mpr rfl) d.storageBytes
      · simp only [if_neg hkey, ← ht, Function.update_eq_self]
        exact hl.represents
    · rw [ht] at hchild
      obtain ⟨cd, cc, hcd, hcterm⟩ := hchild.inner
      have hnext : (d.dirty = true ∨ B.InMemory) ∧
        (B.InMemory ∨ pathMarked r k (.mk cd cc) = true) := by
        rcases hpath with hmem | hmark
        · exact ⟨Or.inr hmem, Or.inl hmem⟩
        · simp [pathMarked, hcd, hcterm] at hmark
          exact ⟨Or.inl hmark.2.1, Or.inr hmark.2.2⟩
      rw [hcd] at hchild
      rw [delete_inner hcd hcterm]
      have hm := ih (by omega) hchild hnext.2
      apply Loaded.represents
      refine ⟨hl.level, hl.terminal, False.elim, hl.loaded, ?_, represents_update _ hl.children hm⟩
      -- `delete` does not mark the node, so it has to be marked before
      intro hdirty
      rcases hnext.1 with hd | hmem
      · rw [hd] at hdirty
        cases hdirty
      · exact (hmem _ _ _).1

end GoPlasma.Smt
