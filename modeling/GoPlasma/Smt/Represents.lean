import GoPlasma.Smt.MerkleTheorems

/-!
# Nodes represent tries

`Represents R B r n t`: the node `n`, with `r` key pieces below it, stands for the trie `t`.
A nil pointer is the empty trie, a terminal node is a leaf, and a non-terminal node is a
branch, in one of two states. A loaded one has its children in memory. An unloaded one has
only a chunk hash, and the chunk store has the rest.

What the store has is a parameter here, the `Backing`: the relation proves what the functions
of `node.go` do for any store that answers as the backing promises (`Backing.Serves`).

`R` says at which heights the cached Merkle roots are right. Insertions and deletions leave them
stale, `computeMerkleRoot` repairs them, and a tree that is opened from the store has them below
its root.
-/

namespace GoPlasma.Smt

/-- What the chunk under a hash has to be: for a node in memory that is not dirty, and for one
that is not loaded. -/
structure Backing where
  clean : ℕ → Bytes → (Fin 16 → EntryTrie) → Prop
  unloaded : ℕ → Bytes → (Fin 16 → EntryTrie) → Prop

/-- No cached root is known to be right. -/
def Stale : ℕ → Prop := fun _ => False

/-- Every cached root is right. -/
def Fresh : ℕ → Prop := fun _ => True

/-- Every cached root below the root node is right. -/
def FreshBelow : ℕ → Prop := fun r => r < nkeypieces

/-- The level of a node with `r` key pieces below it. -/
def levelOf (r : ℕ) : ℤ := 4 * r - 1

theorem levelOf_sub (r : ℕ) : levelOf (r + 1) - bitsPerPiece = levelOf r := by
  simp [levelOf, bitsPerPiece]
  ring

/-- A terminal node of the entry `e` of `k`. -/
structure TerminalData (r k : ℕ) (e : Entry) (d : NodeData) : Prop where
  level : d.level = levelOf r
  terminal : d.terminal = true
  loaded : d.unloaded = false
  key : num d.key = k
  value : d.chunkHash = e.value
  storageBytes : d.storageBytes = e.storageBytes
  blockNum : d.blockNum = e.blockNum

variable {keccak : Bytes → Hash} {R : ℕ → Prop} {B : Backing}

variable (keccak R B) in
/-- The node stands for the trie. -/
def Represents : ℕ → Node → EntryTrie → Prop
  | _, n, .nil => n = .nil
  | r, n, .leaf k e => ∃ d, n = .mk d (fun _ => .nil) ∧ TerminalData r k e d
      ∧ (R r → d.merkleRoot = trieRoot keccak r (.leaf k e))
  | 0, _, .branch _ => False
  | r + 1, n, .branch ts => ∃ d c, n = .mk d c ∧ d.level = levelOf (r + 1) ∧ d.terminal = false
      ∧ (R (r + 1) → d.merkleRoot = trieRoot keccak (r + 1) (.branch ts))
      ∧ ((d.unloaded = true ∧ d.dirty = false ∧ (∀ j, c j = .nil)
            ∧ B.unloaded (r + 1) d.chunkHash ts)
          ∨ (d.unloaded = false ∧ (d.dirty = false → B.clean (r + 1) d.chunkHash ts)
            ∧ ∀ j, Represents r (c j) (ts j)))

variable (keccak R B) in
/-- A loaded non-terminal node that stands for a branch. -/
structure Loaded (r : ℕ) (d : NodeData) (c : Fin 16 → Node) (ts : Fin 16 → EntryTrie) : Prop where
  level : d.level = levelOf (r + 1)
  terminal : d.terminal = false
  root : R (r + 1) → d.merkleRoot = trieRoot keccak (r + 1) (.branch ts)
  loaded : d.unloaded = false
  clean : d.dirty = false → B.clean (r + 1) d.chunkHash ts
  children : ∀ j, Represents keccak R B r (c j) (ts j)

theorem represents_nil {r : ℕ} {n : Node} : Represents keccak R B r n .nil ↔ n = .nil := by
  unfold Represents
  rfl

theorem represents_leaf {r k : ℕ} {e : Entry} {n : Node} :
    Represents keccak R B r n (.leaf k e) ↔ ∃ d, n = .mk d (fun _ => .nil) ∧ TerminalData r k e d
      ∧ (R r → d.merkleRoot = trieRoot keccak r (.leaf k e)) := by
  unfold Represents
  rfl

theorem Loaded.represents {r : ℕ} {d : NodeData} {c : Fin 16 → Node} {ts : Fin 16 → EntryTrie}
    (h : Loaded keccak R B r d c ts) : Represents keccak R B (r + 1) (.mk d c) (.branch ts) :=
  ⟨d, c, rfl, h.level, h.terminal, h.root, Or.inr ⟨h.loaded, h.clean, h.children⟩⟩

/-- A node that stands for a branch is not a terminal. -/
theorem Represents.inner {r : ℕ} {n : Node} {ts : Fin 16 → EntryTrie}
    (h : Represents keccak R B r n (.branch ts)) : ∃ d c, n = .mk d c ∧ d.terminal = false := by
  rcases r with _ | r
  · exact h.elim
  · obtain ⟨d, c, hn, -, hterm, -⟩ := h
    exact ⟨d, c, hn, hterm⟩

/-- Forgetting that the cached roots are right, or what the store has. -/
theorem Represents.mono {R' : ℕ → Prop} {B' : Backing} (hR : ∀ r, R' r → R r)
    (hclean : ∀ r h ts, B.clean r h ts → B'.clean r h ts)
    (hun : ∀ r h ts, B.unloaded r h ts → B'.unloaded r h ts) {r : ℕ} {n : Node} {t : EntryTrie}
    (h : Represents keccak R B r n t) : Represents keccak R' B' r n t := by
  induction r generalizing n t with
  | zero =>
    rcases t with _ | ⟨k, e⟩ | ts
    · exact represents_nil.mpr (represents_nil.mp h)
    · obtain ⟨d, hn, hd, hroot⟩ := represents_leaf.mp h
      exact represents_leaf.mpr ⟨d, hn, hd, fun hr => hroot (hR _ hr)⟩
    · exact h.elim
  | succ r ih =>
    rcases t with _ | ⟨k, e⟩ | ts
    · exact represents_nil.mpr (represents_nil.mp h)
    · obtain ⟨d, hn, hd, hroot⟩ := represents_leaf.mp h
      exact represents_leaf.mpr ⟨d, hn, hd, fun hr => hroot (hR _ hr)⟩
    · obtain ⟨d, c, hn, hlev, hterm, hroot, hmode⟩ := h
      refine ⟨d, c, hn, hlev, hterm, fun hr => hroot (hR _ hr), ?_⟩
      rcases hmode with ⟨hu, hd, hc, hb⟩ | ⟨hu, hs, hc⟩
      · exact Or.inl ⟨hu, hd, hc, hun _ _ _ hb⟩
      · exact Or.inr ⟨hu, fun hd => hclean _ _ _ (hs hd), fun j => ih (hc j)⟩

theorem Represents.forget {r : ℕ} {n : Node} {t : EntryTrie} (h : Represents keccak R B r n t) :
    Represents keccak Stale B r n t :=
  h.mono (fun _ => False.elim) (fun _ _ _ hb => hb) (fun _ _ _ hb => hb)

/-! ## Loading -/

variable (keccak R B) in
/-- The store answers as the backing promises: the chunk of an unloaded node is there, and its
rows decode to nodes that stand for the children. -/
structure Backing.Serves (pcs : Reader) : Prop where
  clean : ∀ r h ts, B.unloaded r h ts → B.clean r h ts
  rows : ∀ r h ts, B.unloaded (r + 1) h ts → ∃ chunk, pcs h = .found chunk ∧
    ∀ j, ∃ n, loadRow (levelOf (r + 1)) chunk j .nil = .ok n ∧ Represents keccak R B r n (ts j)

variable {pcs : Reader}

/-- `load` of a node that stands for a branch: the node is loaded afterwards, and only its
children and the flag `unloaded` have changed. -/
theorem load_represents (hB : B.Serves keccak R pcs) {r : ℕ} {n : Node}
    {ts : Fin 16 → EntryTrie} (h : Represents keccak R B (r + 1) n (.branch ts)) :
    ∃ d c c', n = .mk d c ∧ load pcs d c = .ok ({ d with unloaded := false }, c')
      ∧ Loaded keccak R B r { d with unloaded := false } c' ts := by
  obtain ⟨d, c, hn, hlev, hterm, hroot, ⟨hu, hd, hc, hb⟩ | ⟨hu, hs, hc⟩⟩ := h
  · obtain ⟨chunk, hfound, hrows⟩ := hB.rows r d.chunkHash ts hb
    choose c' hload hrep using hrows
    refine ⟨d, c, c', hn, ?_, ⟨hlev, hterm, hroot, rfl, fun _ => hB.clean _ _ _ hb, hrep⟩⟩
    have hcollect : collect (fun j => loadRow d.level chunk j (c j)) = .ok c' := by
      apply collect_eq_ok.mpr
      intro j
      rw [hlev, hc j]
      exact hload j
    rw [load, if_pos hu, hfound]
    simp only [hcollect, bind, Except.bind]
  · have hd : { d with unloaded := false } = d := by rw [← hu]
    refine ⟨d, c, c, hn, ?_, ?_⟩
    · rw [load, if_neg (by simp [hu]), hd]
    · rw [hd]
      exact ⟨hlev, hterm, hroot, hu, hs, hc⟩

/-- Loading an inner node of any height. -/
theorem load_inner (hB : B.Serves keccak R pcs) {r : ℕ} {n : Node} {ts : Fin 16 → EntryTrie}
    (h : Represents keccak R B r n (.branch ts)) :
    ∃ d c d' c', n = .mk d c ∧ load pcs d c = .ok (d', c') ∧ d'.terminal = false
      ∧ Represents keccak R B r (.mk d' c') (.branch ts) := by
  rcases r with _ | r
  · exact h.elim
  · obtain ⟨d, c, c', hn, hload, hl⟩ := load_represents hB h
    exact ⟨d, c, _, c', hn, hload, hl.terminal, hl.represents⟩

/-- Loading a terminal node does nothing. -/
theorem load_of_loaded {d : NodeData} (h : d.unloaded = false) (c : Fin 16 → Node) :
    load pcs d c = .ok (d, c) := by
  rw [load, if_neg (by simp [h])]

end GoPlasma.Smt
