import GoPlasma.Smt.UpdateTheorems

/-!
# Computing and flushing the Merkle roots

`computeMerkleRoot` loads every node, and either repairs every cached root or panics; it panics
exactly when some terminal has no key piece left below it (`computeMerkleRoot_represents`).
`flush` then writes the dirty nodes bottom up (`flush_represents`); what the written chunks have
to say is left to the backing again (`Backing.Accepts`).
-/

namespace GoPlasma.Smt

variable {keccak : Bytes → Hash} {R : ℕ → Prop} {B B' : Backing} {pcs : Reader}

/-! ## One node -/

/-- A parent sees the root of the subtree in each slot. -/
theorem slotRoot_eq {r : ℕ} {n : Node} {t : EntryTrie} (h : Represents keccak R B r n t)
    (hR : R r) :
    slotRoot (defaultHashes keccak (4 * r)) n = trieRoot keccak r t := by
  rcases t with _ | ⟨k, e⟩ | ts
  · rw [represents_nil.mp h, trieRoot_nil]
    rfl
  · obtain ⟨d, rfl, -, hroot⟩ := represents_leaf.mp h
    exact hroot hR
  · rcases r with _ | r
    · exact h.elim
    · obtain ⟨d, c, rfl, -, -, hroot, -⟩ := h
      exact hroot hR

theorem slots_eq {r : ℕ} {c : Fin 16 → Node} {ts : Fin 16 → EntryTrie}
    (h : ∀ j, Represents keccak R B r (c j) (ts j)) (hR : R r) :
    slots keccak (levelOf (r + 1)) c = fun j => trieRoot keccak r (ts j) := by
  ext j : 1
  have hlev : (levelOf (r + 1) - 3).toNat = 4 * r := by
    unfold levelOf
    omega
  rw [slots, hlev]
  exact slotRoot_eq (h j) hR

/-- The cache of an inner node never panics, and is right when the children are. -/
theorem computeMerkleRootCache_eq {r : ℕ} (hr : r < nkeypieces) {c : Fin 16 → Node}
    {ts : Fin 16 → EntryTrie} (h : ∀ j, Represents keccak R B r (c j) (ts j)) :
    ∃ root, computeMerkleRootCache keccak (levelOf (r + 1)) c = .ok root
      ∧ (R r → root = trieRoot keccak (r + 1) (.branch ts)) := by
  have hrange : 3 ≤ levelOf (r + 1) ∧ levelOf (r + 1) < treeDepth + 3 := by
    unfold levelOf nkeypieces treeDepth at *
    omega
  refine ⟨_, by rw [computeMerkleRootCache, if_pos hrange], fun hR => ?_⟩
  rw [slots_eq h hR, trieRoot_branch]
  rfl

/-- The terminal loop panics exactly when no key piece is left. -/
theorem terminalRoot_eq {r k : ℕ} (hr : r ≤ nkeypieces) {e : Entry} {d : NodeData}
    (hd : TerminalData r k e d) :
    terminalRoot keccak d
      = if 0 < r then .ok (trieRoot keccak r (.leaf k e)) else .error .indexOutOfRange := by
  rw [terminalRoot, hd.level]
  by_cases h0 : 0 < r
  · have hrange : 0 ≤ levelOf r ∧ levelOf r < treeDepth := by
      unfold levelOf nkeypieces treeDepth at *
      omega
    have hlen : (levelOf r).toNat + 1 = 4 * r := by
      unfold levelOf
      omega
    rw [if_pos hrange, if_pos h0, hlen, hd.value, trieRoot_leaf, ← hd.key,
      terminalHash_eq_climb keccak d.key e.value (by unfold nkeypieces at hr; omega)]
  · have hrange : ¬ (0 ≤ levelOf r ∧ levelOf r < treeDepth) := by
      unfold levelOf
      omega
    rw [if_neg hrange, if_neg h0]

/-! ## The whole tree -/

/-- The same demand on clean nodes, and no unloaded nodes. -/
def Backing.allLoaded (B : Backing) : Backing := ⟨B.clean, fun _ _ _ => False⟩

/-- A result or a panic, decided by the shape of the trie. -/
def Decided (P : Node → Prop) (C : Prop) (res : Go Node) : Prop :=
  (C ∧ ∃ n, res = .ok n ∧ P n) ∨ (¬ C ∧ ∃ e, res = .error e)

/-- `computeMerkleRoot` on a terminal. -/
theorem computeMerkleRoot_terminal {r k fuel : ℕ} (hr : r ≤ nkeypieces) {e : Entry} {n : Node}
    (hn : Represents keccak R B r n (.leaf k e)) :
    Decided (fun n' => Represents keccak Fresh B.allLoaded r n' (.leaf k e)) (0 < r)
      (onChild (computeMerkleRoot keccak pcs (fuel + 1)) n) := by
  obtain ⟨d, rfl, hd, -⟩ := represents_leaf.mp hn
  rw [onChild, computeMerkleRoot, load_of_loaded hd.loaded]
  simp only [bind, Except.bind, hd.terminal, if_true, terminalRoot_eq hr hd]
  by_cases h0 : 0 < r
  · rw [if_pos h0]
    refine Or.inl ⟨h0, _, rfl, represents_leaf.mpr ⟨_, rfl, ?_, fun _ => rfl⟩⟩
    exact ⟨hd.level, rfl, hd.loaded, hd.key, hd.value, hd.storageBytes, hd.blockNum⟩
  · rw [if_neg h0]
    exact Or.inr ⟨h0, _, rfl⟩

/-- The loop over the children: every round returns, or some round panics. -/
theorem collect_decided {f : Fin 16 → Go Node} {P : Fin 16 → Node → Prop} {C : Fin 16 → Prop}
    (h : ∀ j, Decided (P j) (C j) (f j)) :
    ((∀ j, C j) ∧ ∃ c, collect f = .ok c ∧ ∀ j, P j (c j))
      ∨ (¬ (∀ j, C j) ∧ ∃ e, collect f = .error e) := by
  by_cases hC : ∀ j, C j
  · have hok : ∀ j, ∃ n, f j = .ok n ∧ P j n := by
      intro j
      rcases h j with ⟨-, hj⟩ | ⟨hj, -⟩
      · exact hj
      · exact (hj (hC j)).elim
    choose c hc hP using hok
    exact Or.inl ⟨hC, c, collect_eq_ok.mpr hc, hP⟩
  · refine Or.inr ⟨hC, ?_⟩
    obtain ⟨j, hj⟩ := not_forall.mp hC
    obtain ⟨e, he⟩ : ∃ e, f j = .error e := by
      rcases h j with ⟨hj', -⟩ | ⟨-, he⟩
      · exact (hj hj').elim
      · exact he
    rcases hcol : collect f with e' | c
    · exact ⟨e', rfl⟩
    · rw [collect_eq_ok.mp hcol j] at he
      cases he

/-- `computeMerkleRoot` on a node of height `r`. -/
theorem computeMerkleRoot_represents (hB : B.Serves keccak R pcs) {r : ℕ} (hr : r ≤ nkeypieces)
    {n : Node} {t : EntryTrie} (hn : Represents keccak R B r n t) :
    Decided (fun n' => Represents keccak Fresh B.allLoaded r n' t) (t.Shallow r)
      (onChild (computeMerkleRoot keccak pcs (r + 1)) n) := by
  induction r generalizing n t with
  | zero =>
    rcases t with _ | ⟨k, e⟩ | ts
    · rw [represents_nil.mp hn]
      exact Or.inl ⟨Trie.shallow_nil _, .nil, rfl, represents_nil.mpr rfl⟩
    · rw [Trie.shallow_leaf]
      exact computeMerkleRoot_terminal hr hn
    · exact hn.elim
  | succ r ih =>
    rcases t with _ | ⟨k, e⟩ | ts
    · rw [represents_nil.mp hn]
      exact Or.inl ⟨Trie.shallow_nil _, .nil, rfl, represents_nil.mpr rfl⟩
    · rw [Trie.shallow_leaf]
      exact computeMerkleRoot_terminal hr hn
    · obtain ⟨d, c, c', rfl, hload, hl⟩ := load_represents hB hn
      have hterm : d.terminal = false := hl.terminal
      rw [onChild, computeMerkleRoot, hload]
      simp only [bind, Except.bind, hterm, Bool.false_eq_true, if_false]
      -- first the children, then the cache of the node over them
      rcases collect_decided fun j => ih (by omega) (hl.children j) with
        ⟨hsh, c₂, hcol, hc₂⟩ | ⟨hsh, e, hcol⟩
      · obtain ⟨root, hroot, hrooteq⟩ := computeMerkleRootCache_eq hr hc₂
        rw [← hl.level] at hroot
        simp only [hcol, hroot]
        refine Or.inl ⟨hsh, _, rfl, Loaded.represents ?_⟩
        exact ⟨hl.level, rfl, hrooteq, rfl, hl.clean, hc₂⟩
      · simp only [hcol]
        exact Or.inr ⟨hsh, e, rfl⟩

/-! ## Flushing -/

/-- The node is not dirty, if it is an inner one. -/
def CleanInner (n : Node) : Prop := ∀ d c, n = .mk d c → d.terminal = false → d.dirty = false

variable (keccak B B') in
/-- What a flush that issues the given writes turns the backing into: clean nodes stay clean,
and the chunk of a node whose inner children are all clean may be relied on. -/
structure Backing.Accepts (writes : List (Bytes × Bytes)) : Prop where
  keep : ∀ r h ts, B.clean r h ts → B'.clean r h ts
  write : ∀ r (c : Fin 16 → Node) ts, r < nkeypieces →
    (∀ j, Represents keccak Fresh B'.allLoaded r (c j) (ts j)) →
    (∀ j, CleanInner (c j)) →
    ((keccak (nodeChunk fun j => row (c j))).1, nodeChunk fun j => row (c j)) ∈ writes →
    B'.clean (r + 1) (keccak (nodeChunk fun j => row (c j))).1 ts

variable (keccak) in
/-- What a flush of the parent makes of a child. -/
def flushChild (n : Node) : Node × List (Bytes × Bytes) :=
  if isInner n then flush keccak n else (n, [])

theorem flush_dirty {d : NodeData} (hd : d.dirty = true) (c : Fin 16 → Node) :
    flush keccak (.mk d c)
      = (.mk { d with
            chunkHash := (keccak (nodeChunk fun j => row (flushChild keccak (c j)).1)).1
            dirty := false } fun j => (flushChild keccak (c j)).1,
          ((List.finRange 16).flatMap fun j => (flushChild keccak (c j)).2)
            ++ [((keccak (nodeChunk fun j => row (flushChild keccak (c j)).1)).1,
              nodeChunk fun j => row (flushChild keccak (c j)).1)]) := by
  rw [flush, if_pos hd]
  rfl

theorem flush_clean {d : NodeData} (hd : d.dirty = false) (c : Fin 16 → Node) :
    flush keccak (.mk d c) = (.mk d c, []) := by
  rw [flush, if_neg (by simp [hd])]

/-- Nodes that a flush does not touch. -/
theorem Represents.keep {writes : List (Bytes × Bytes)} (hB : B.Accepts keccak B' writes)
    {r : ℕ} {n : Node} {t : EntryTrie} (hn : Represents keccak Fresh B.allLoaded r n t) :
    Represents keccak Fresh B'.allLoaded r n t := by
  refine Represents.mono (fun _ => id) ?_ ?_ hn
  · exact hB.keep
  · intro _ _ _ h
    exact h

/-- A flush does nothing to a terminal or an empty slot. -/
theorem flushChild_entry {writes : List (Bytes × Bytes)} (hB : B.Accepts keccak B' writes)
    {r : ℕ} {n : Node} {t : EntryTrie} (hn : Represents keccak Fresh B.allLoaded r n t)
    (ht : ∀ ts, t ≠ .branch ts) :
    CleanInner (flushChild keccak n).1
      ∧ Represents keccak Fresh B'.allLoaded r (flushChild keccak n).1 t := by
  have hsame : flushChild keccak n = (n, []) ∧ CleanInner n := by
    rcases t with _ | ⟨k, e⟩ | ts
    · rw [represents_nil.mp hn]
      refine ⟨rfl, ?_⟩
      intro d c hmk
      cases hmk
    · obtain ⟨d, rfl, hd, -⟩ := represents_leaf.mp hn
      refine ⟨?_, ?_⟩
      · rw [flushChild, isInner, hd.terminal]
        rfl
      · intro d' c' hmk hterm
        obtain ⟨rfl, -⟩ := Node.mk.inj hmk
        rw [hd.terminal] at hterm
        cases hterm
    · exact (ht ts rfl).elim
  rw [hsame.1]
  exact ⟨hsame.2, hn.keep hB⟩

/-- A flush of an inner node, given what it does to the children. -/
theorem flush_inner {writes : List (Bytes × Bytes)} (hB : B.Accepts keccak B' writes) {r : ℕ}
    (hr : r < nkeypieces) {d : NodeData} {c : Fin 16 → Node} {ts : Fin 16 → EntryTrie}
    (hl : Loaded keccak Fresh B.allLoaded r d c ts)
    (hkeep : Represents keccak Fresh B'.allLoaded (r + 1) (.mk d c) (.branch ts))
    (hchild : ∀ j, (∀ w ∈ (flushChild keccak (c j)).2, w ∈ writes) →
      CleanInner (flushChild keccak (c j)).1
        ∧ Represents keccak Fresh B'.allLoaded r (flushChild keccak (c j)).1 (ts j))
    (hw : ∀ w ∈ (flush keccak (.mk d c)).2, w ∈ writes) :
    CleanInner (flush keccak (.mk d c)).1
      ∧ Represents keccak Fresh B'.allLoaded (r + 1) (flush keccak (.mk d c)).1 (.branch ts) := by
  -- only a dirty node writes its chunk, after its children have written theirs
  by_cases hdirty : d.dirty = true
  · rw [flush_dirty hdirty] at hw ⊢
    have hall : ∀ j, CleanInner (flushChild keccak (c j)).1
        ∧ Represents keccak Fresh B'.allLoaded r (flushChild keccak (c j)).1 (ts j) := by
      intro j
      apply hchild j
      intro w hwj
      apply hw
      rw [List.mem_append, List.mem_flatMap]
      exact Or.inl ⟨j, List.mem_finRange j, hwj⟩
    have hrows := hB.write r (fun j => (flushChild keccak (c j)).1) ts hr
      (fun j => (hall j).2) (fun j => (hall j).1) (hw _ (by simp))
    refine ⟨?_, Loaded.represents ?_⟩
    · intro d' c' hmk _
      obtain ⟨rfl, -⟩ := Node.mk.inj hmk
      rfl
    · exact ⟨hl.level, hl.terminal, hl.root, hl.loaded, fun _ => hrows, fun j => (hall j).2⟩
  · have hclean : d.dirty = false := by simpa using hdirty
    rw [flush_clean hclean]
    refine ⟨?_, hkeep⟩
    intro d' c' hmk _
    obtain ⟨rfl, -⟩ := Node.mk.inj hmk
    exact hclean

/-- `flush` of a loaded node with right roots, as its parent flushes it: the node is clean
afterwards. -/
theorem flushChild_represents {writes : List (Bytes × Bytes)} (hB : B.Accepts keccak B' writes)
    {r : ℕ} (hr : r ≤ nkeypieces) {n : Node} {t : EntryTrie}
    (hn : Represents keccak Fresh B.allLoaded r n t)
    (hw : ∀ w ∈ (flushChild keccak n).2, w ∈ writes) :
    CleanInner (flushChild keccak n).1
      ∧ Represents keccak Fresh B'.allLoaded r (flushChild keccak n).1 t := by
  -- only branches are flushed; they have their children flushed first
  induction r generalizing n t with
  | zero =>
    rcases t with _ | ⟨k, e⟩ | ts
    · exact flushChild_entry hB hn (by simp)
    · exact flushChild_entry hB hn (by simp)
    · exact hn.elim
  | succ r ih =>
    rcases t with _ | ⟨k, e⟩ | ts
    · exact flushChild_entry hB hn (by simp)
    · exact flushChild_entry hB hn (by simp)
    · have hkeep := hn.keep hB
      obtain ⟨d, c, rfl, hlev, hterm, hroot, ⟨-, -, -, hfalse⟩ | ⟨hu, hs, hc⟩⟩ := hn
      · exact hfalse.elim
      · have hin : flushChild keccak (.mk d c) = flush keccak (.mk d c) := by
          rw [flushChild, isInner, hterm]
          rfl
        rw [hin] at hw ⊢
        exact flush_inner hB hr ⟨hlev, hterm, hroot, hu, hs, hc⟩ hkeep
          (fun j => ih (by omega) (hc j)) hw

/-! ## The tree -/

/-- A flush does not touch the root that has just been computed. -/
theorem rootMerkle_flush (n : Node) :
    SparseMerkleTree.rootMerkle (flush keccak n).1 = SparseMerkleTree.rootMerkle n := by
  rcases n with _ | ⟨d, c⟩
  · rfl
  · unfold flush
    by_cases hd : d.dirty = true
    · rw [if_pos hd]
      rfl
    · rw [if_neg hd]

/-- `Flush` of a tree: it returns exactly when no terminal is at the bottom, and then the root
node is clean, and every cached root is right. -/
theorem treeFlush_represents (hB : B.Serves keccak R pcs) {n : Node} {ts : Fin 16 → EntryTrie}
    (hn : Represents keccak R B nkeypieces n (.branch ts)) :
    (Trie.Shallow nkeypieces (.branch ts) ∧ ∃ n' writes,
      SparseMerkleTree.flush keccak pcs n = .ok (n', writes ++
        [(trieRoot keccak nkeypieces (.branch ts), SparseMerkleTree.rootHash n')])
      ∧ SparseMerkleTree.rootMerkle n' = trieRoot keccak nkeypieces (.branch ts)
      ∧ (∃ n₁, writes = (flush keccak n₁).2)
      ∧ ∀ B' : Backing, B.Accepts keccak B' writes → CleanInner n'
        ∧ Represents keccak Fresh B'.allLoaded nkeypieces n' (.branch ts))
      ∨ (¬ Trie.Shallow nkeypieces (.branch ts) ∧ ∃ e, SparseMerkleTree.flush keccak pcs n =
        .error e) := by
  obtain ⟨d, c, rfl, hterm⟩ := hn.inner
  unfold SparseMerkleTree.flush
  -- the roots are computed first, which fails for a terminal at the bottom
  rcases computeMerkleRoot_represents hB le_rfl hn with ⟨hsh, n₁, hcomp, hn₁⟩ | ⟨hsh, e, hcomp⟩
  · refine Or.inl ⟨hsh, (flush keccak n₁).1, (flush keccak n₁).2, ?_⟩
    rw [onChild] at hcomp
    obtain ⟨d₁, c₁, rfl, hterm₁⟩ := hn₁.inner
    have hin : flushChild keccak (.mk d₁ c₁) = flush keccak (.mk d₁ c₁) := by
      rw [flushChild, isInner, hterm₁]
      rfl
    have hmerkle : SparseMerkleTree.rootMerkle (flush keccak (.mk d₁ c₁)).1
        = trieRoot keccak nkeypieces (.branch ts) := by
      rw [rootMerkle_flush]
      exact slotRoot_eq hn₁ trivial
    refine ⟨?_, hmerkle, ⟨_, rfl⟩, ?_⟩
    · simp only [hcomp, bind, Except.bind, hmerkle]
    · intro B' hacc
      rw [← hin]
      apply flushChild_represents hacc le_rfl hn₁
      rw [hin]
      exact fun w hw => hw
  · rw [onChild] at hcomp
    refine Or.inr ⟨hsh, e, ?_⟩
    simp only [hcomp, bind, Except.bind]

end GoPlasma.Smt
