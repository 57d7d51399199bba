import GoPlasma.Smt.ProofTheorems

/-!
# Nodes in the chunk store

The 88-byte rows of a node chunk: what a row holds for each kind of child (`StoredRow`), and
that reading a row back gives a node for the same trie (`loadRow_represents`). The format tells
an empty slot, a subtree and a terminal apart by all-zero fields, so that it only works for
entries that are `Readable`: a terminal of the all-zero key reads back as a subtree, and one
with an all-zero value as an empty slot.
-/

namespace GoPlasma.Smt

variable {keccak : Bytes → Hash} {R : ℕ → Prop}

/-! ## Rows -/

/-- The fields of a row. -/
def rowBytes (key hash : Bytes) (storageBytes : UInt64) (root : Bytes)
    (blockNum : UInt64) : Bytes :=
  key ++ Bytes.fit 32 hash ++ uInt64ToByte storageBytes ++ Bytes.fit 32 root ++
    uInt64ToByte blockNum

theorem row_mk (d : NodeData) (c : Fin 16 → Node) :
    row (.mk d c) = rowBytes (if d.terminal then d.key.1 else Bytes.zeros 8) d.chunkHash
      d.storageBytes d.merkleRoot d.blockNum := rfl

section
variable {key hash root : Bytes} {sb bn : UInt64}

theorem length_rowBytes (hk : key.length = 8) :
    (rowBytes key hash sb root bn).length = bytesPerChild := by
  simp [rowBytes, hk, bytesPerChild]

theorem slice_rowBytes_key (hk : key.length = 8) :
    Bytes.slice (rowBytes key hash sb root bn) 0 8 = key := by
  simp only [rowBytes, List.append_assoc]
  rw [Bytes.slice_append_left (by omega), ← hk, Bytes.slice_zero_self]

theorem slice_rowBytes_hash (hk : key.length = 8) :
    Bytes.slice (rowBytes key hash sb root bn) 8 32 = Bytes.fit 32 hash := by
  simp only [rowBytes, List.append_assoc]
  exact Bytes.slice_field hk (by simp)

theorem slice_rowBytes_storageBytes (hk : key.length = 8) :
    Bytes.slice (rowBytes key hash sb root bn) 40 8 = uInt64ToByte sb := by
  rw [rowBytes, List.append_assoc, List.append_assoc]
  exact Bytes.slice_field (by simp [hk]) (by simp)

theorem slice_rowBytes_root (hk : key.length = 8) :
    Bytes.slice (rowBytes key hash sb root bn) 48 32 = Bytes.fit 32 root := by
  rw [rowBytes, List.append_assoc]
  exact Bytes.slice_field (by simp [hk]) (by simp)

theorem slice_rowBytes_blockNum (hk : key.length = 8) :
    Bytes.slice (rowBytes key hash sb root bn) 80 8 = uInt64ToByte bn := by
  have h := Bytes.slice_field (a := key ++ Bytes.fit 32 hash ++ uInt64ToByte sb ++
    Bytes.fit 32 root)
    (f := uInt64ToByte bn) (b := []) (i := 80) (n := 8) (by simp [hk]) (by simp)
  rw [List.append_nil] at h
  exact h

end

theorem length_nodeChunk {f : Fin 16 → Bytes} (hf : ∀ j, (f j).length = bytesPerChild) :
    (nodeChunk f).length = chunkSize := by
  rw [nodeChunk, List.length_append, Bytes.length_rows hf, Bytes.length_zeros]
  rfl

/-- A field of row `j` of a chunk. -/
theorem slice_nodeChunk {f : Fin 16 → Bytes} (hf : ∀ j, (f j).length = bytesPerChild) (j : Fin 16)
    {o n : ℕ} (h : o + n ≤ bytesPerChild) :
    Bytes.slice (nodeChunk f) (j * bytesPerChild + o) n = Bytes.slice (f j) o n :=
  Bytes.slice_rows hf _ j h

/-- What `loadRow` makes of a row, field by field. -/
theorem loadRow_eq {f : Fin 16 → Bytes} (hf : ∀ j, (f j).length = bytesPerChild) (level : ℤ)
    (j : Fin 16) {key hash root : Bytes} {sb bn : UInt64} (hk : key.length = 8)
    (hrow : f j = rowBytes key hash sb root bn) (hhash : Bytes.fit 32 hash ≠ Bytes.zeros 32)
    (old : Node) :
    loadRow level (nodeChunk f) j old = .ok (.mk
      { newData (level - bitsPerPiece) with
        terminal := !decide (key = Bytes.zeros 8)
        unloaded := decide (key = Bytes.zeros 8)
        key := if key = Bytes.zeros 8 then default else toKey key
        chunkHash := Bytes.fit 32 hash
        storageBytes := sb
        merkleRoot := Bytes.fit 32 root
        blockNum := bn } fun _ => .nil) := by
  have hj : (j : ℕ) * bytesPerChild + 88 ≤ (nodeChunk f).length := by
    have hlt := j.isLt
    rw [length_nodeChunk hf]
    unfold bytesPerChild chunkSize
    omega
  have hfield : ∀ o n, o + n ≤ bytesPerChild → Bytes.slice (nodeChunk f) (j * bytesPerChild + o) n
      = Bytes.slice (rowBytes key hash sb root bn) o n := by
    intro o n h
    rw [slice_nodeChunk hf j h, hrow]
  -- the five fields of the row
  have hkey := hfield 0 8 (by decide)
  rw [Nat.add_zero, slice_rowBytes_key hk] at hkey
  have h8 := hfield 8 32 (by decide)
  have h40 := hfield 40 8 (by decide)
  have h48 := hfield 48 32 (by decide)
  have h80 := hfield 80 8 (by decide)
  rw [slice_rowBytes_hash hk] at h8
  rw [slice_rowBytes_storageBytes hk] at h40
  rw [slice_rowBytes_root hk] at h48
  rw [slice_rowBytes_blockNum hk] at h80
  unfold loadRow
  simp only [hkey, h8, h40, h48, h80, if_neg hhash, bytesToUint64_uInt64ToByte]
  rw [if_neg (by omega), if_neg (by omega)]
  simp

/-- A blank row keeps what is in the slot. -/
theorem loadRow_blank {f : Fin 16 → Bytes} (hf : ∀ j, (f j).length = bytesPerChild) (level : ℤ)
    (j : Fin 16) (hrow : f j = Bytes.zeros bytesPerChild) (old : Node) :
    loadRow level (nodeChunk f) j old = .ok old := by
  have hblank : Bytes.slice (nodeChunk f) (j * bytesPerChild + 8) 32 = Bytes.zeros 32 := by
    rw [slice_nodeChunk hf j (by decide), hrow]
    rfl
  have hj : ¬ (nodeChunk f).length < (j : ℕ) * bytesPerChild + 40 := by
    have hlt := j.isLt
    rw [length_nodeChunk hf]
    unfold bytesPerChild chunkSize
    omega
  rw [loadRow]
  simp only [hj, if_false, hblank, if_true]

/-! ## What the store has -/

variable (keccak) in
/-- The row says that its slot holds the trie, of height `r`; the chunks of the subtrees are
in the store, under their own hashes. -/
def StoredRow (s : Store) : ℕ → Bytes → EntryTrie → Prop
  | _, row, .nil => row = Bytes.zeros bytesPerChild
  | r, row, .leaf k e => ∃ key : Key, num key = k
      ∧ row = rowBytes key.1 e.value e.storageBytes (trieRoot keccak r (.leaf k e)) e.blockNum
  | 0, _, .branch _ => False
  | r + 1, row, .branch ts => ∃ rows sb bn,
      row = rowBytes (Bytes.zeros 8) (keccak (nodeChunk rows)).1 sb
        (trieRoot keccak (r + 1) (.branch ts)) bn
      ∧ s.lookup (keccak (nodeChunk rows)).1 = some (nodeChunk rows)
      ∧ (keccak (nodeChunk rows)).1 ≠ Bytes.zeros 32
      ∧ ∀ j, StoredRow s r (rows j) (ts j)

variable (keccak) in
/-- The chunk under `h` is that of a node of height `r` with these children. -/
def Stored (s : Store) (r : ℕ) (h : Bytes) (ts : Fin 16 → EntryTrie) : Prop :=
  ∃ rows, h = (keccak (nodeChunk rows)).1
    ∧ s.lookup (keccak (nodeChunk rows)).1 = some (nodeChunk rows)
    ∧ (keccak (nodeChunk rows)).1 ≠ Bytes.zeros 32
    ∧ ∀ j, StoredRow keccak s (r - 1) (rows j) (ts j)

/-- An entry that the row format can hold. -/
def ReadableEntry (k : ℕ) (e : Entry) : Prop :=
  k ≠ 0 ∧ e.value.length = 32 ∧ e.value ≠ Bytes.zeros 32

/-- Every entry can be read back. -/
def Readable (t : EntryTrie) : Prop := t.All ReadableEntry

theorem storedRow_nil {s : Store} {r : ℕ} {row : Bytes} :
    StoredRow keccak s r row .nil ↔ row = Bytes.zeros bytesPerChild := by
  unfold StoredRow
  rfl

theorem storedRow_leaf {s : Store} {r k : ℕ} {e : Entry} {row : Bytes} :
    StoredRow keccak s r row (.leaf k e) ↔ ∃ key : Key, num key = k
      ∧ row = rowBytes key.1 e.value e.storageBytes (trieRoot keccak r (.leaf k e)) e.blockNum := by
  unfold StoredRow
  rfl

theorem storedRow_branch {s : Store} {r : ℕ} {ts : Fin 16 → EntryTrie} {row : Bytes} :
    StoredRow keccak s (r + 1) row (.branch ts) ↔ ∃ h sb bn,
      row = rowBytes (Bytes.zeros 8) h sb (trieRoot keccak (r + 1) (.branch ts)) bn
      ∧ Stored keccak s (r + 1) h ts := by
  refine ⟨fun ⟨rows, sb, bn, hrow, hs⟩ => ⟨_, sb, bn, hrow, rows, rfl, hs⟩, ?_⟩
  intro ⟨h, sb, bn, hrow, rows, hh, hs⟩
  exact ⟨rows, sb, bn, hh ▸ hrow, hs⟩

theorem StoredRow.length {s : Store} {r : ℕ} {row : Bytes} {t : EntryTrie}
    (h : StoredRow keccak s r row t) : row.length = bytesPerChild := by
  rcases t with _ | ⟨k, e⟩ | ts
  · rw [storedRow_nil.mp h, Bytes.length_zeros]
  · obtain ⟨key, -, rfl⟩ := storedRow_leaf.mp h
    exact length_rowBytes key.2
  · rcases r with _ | r
    · exact h.elim
    · obtain ⟨h, sb, bn, rfl, -⟩ := storedRow_branch.mp h
      exact length_rowBytes (Bytes.length_zeros 8)

/-- The node chunks of `s` are still in `s'`. -/
def Store.Keeps (keccak : Bytes → Hash) (s s' : Store) : Prop :=
  ∀ chunk, chunk.length = chunkSize → s.lookup (keccak chunk).1 = some chunk →
    s'.lookup (keccak chunk).1 = some chunk

theorem StoredRow.mono {s s' : Store} (hkeep : s.Keeps keccak s') {r : ℕ} {row : Bytes}
    {t : EntryTrie} (h : StoredRow keccak s r row t) : StoredRow keccak s' r row t := by
  induction r generalizing row t with
  | zero =>
    rcases t with _ | ⟨k, e⟩ | ts
    · exact storedRow_nil.mpr (storedRow_nil.mp h)
    · exact storedRow_leaf.mpr (storedRow_leaf.mp h)
    · exact h.elim
  | succ r ih =>
    rcases t with _ | ⟨k, e⟩ | ts
    · exact storedRow_nil.mpr (storedRow_nil.mp h)
    · exact storedRow_leaf.mpr (storedRow_leaf.mp h)
    · obtain ⟨rows, sb, bn, hrow, hfound, hne, hrows⟩ := h
      have hlen := length_nodeChunk fun j => (hrows j).length
      exact ⟨rows, sb, bn, hrow, hkeep _ hlen hfound, hne, fun j => ih (hrows j)⟩

theorem Stored.mono {s s' : Store} (hkeep : s.Keeps keccak s') {r : ℕ} {h : Bytes}
    {ts : Fin 16 → EntryTrie} (hs : Stored keccak s r h ts) : Stored keccak s' r h ts := by
  obtain ⟨rows, hh, hfound, hne, hrows⟩ := hs
  have hlen := length_nodeChunk fun j => (hrows j).length
  exact ⟨rows, hh, hkeep _ hlen hfound, hne, fun j => (hrows j).mono hkeep⟩

/-! ## Reading -/

variable (keccak) in
/-- The chunk store as a backing. A tree that has never been flushed is clean and has no
chunk. -/
def Backing.store (s : Store) : Backing where
  clean := fun r h ts => Stored keccak s r h ts ∨ (r = nkeypieces ∧ h = [] ∧ ts = fun _ => .nil)
  unloaded := fun r h ts => Stored keccak s r h ts ∧ ∀ j, Readable (ts j)

theorem length_hashPair (a b : Bytes) : (hashPair keccak a b).length = 32 := (keccak _).2

/-- The root of a terminal with a 32-byte value has 32 bytes. -/
theorem length_trieRoot_leaf {r k : ℕ} {e : Entry} (hv : e.value.length = 32) :
    (trieRoot keccak r (.leaf k e)).length = 32 := by
  rw [trieRoot_leaf]
  rcases r with _ | r
  · exact hv
  · rw [show 4 * (r + 1) = 4 * r + 3 + 1 by ring, BinTree.climb]
    split <;> exact length_hashPair _ _

theorem length_trieRoot_branch {r : ℕ} {ts : Fin 16 → EntryTrie} :
    (trieRoot keccak (r + 1) (.branch ts)).length = 32 := length_hashPair _ _

theorem key_ne_zeros {k : Key} (h : num k ≠ 0) : k.1 ≠ Bytes.zeros 8 := by
  intro hz
  apply h
  rw [← num_zeroKey]
  exact congrArg num (Subtype.ext hz)

theorem toKey_self (k : Key) : toKey k.1 = k := Subtype.ext (Bytes.fit_of_length k.2)

/-- Reading a row back gives a node for the trie that the row was written for. -/
theorem loadRow_represents {s : Store} {r : ℕ} {rows : Fin 16 → Bytes} {j : Fin 16}
    {ts : Fin 16 → EntryTrie} (hrows : ∀ j, StoredRow keccak s r (rows j) (ts j))
    (hread : Readable (ts j)) :
    ∃ n, loadRow (levelOf (r + 1)) (nodeChunk rows) j .nil = .ok n
      ∧ Represents keccak R (Backing.store keccak s) r n (ts j) := by
  have hlen : ∀ i, (rows i).length = bytesPerChild := fun i => (hrows i).length
  have hrow := hrows j
  rcases ht : ts j with _ | ⟨k, e⟩ | ts'
  · -- a blank row: its hash field is zero
    rw [ht, storedRow_nil] at hrow
    exact ⟨.nil, loadRow_blank hlen (levelOf (r + 1)) j hrow .nil, represents_nil.mpr rfl⟩
  · rw [ht, storedRow_leaf] at hrow
    -- a terminal: its row has the key, which is not zero
    rw [ht] at hread
    obtain ⟨key, hkey, hrow⟩ := hrow
    obtain ⟨hk0, hv32, hv0⟩ := hread
    have hval : Bytes.fit 32 e.value = e.value := Bytes.fit_of_length hv32
    have hkz : key.1 ≠ Bytes.zeros 8 := key_ne_zeros (by rw [hkey]; exact hk0)
    refine ⟨_, loadRow_eq hlen (levelOf (r + 1)) j key.2 hrow (by rw [hval]; exact hv0) .nil, ?_⟩
    refine represents_leaf.mpr ⟨_, rfl, ⟨levelOf_sub r, ?_, ?_, ?_, hval, rfl, rfl⟩, fun _ => ?_⟩
    · simp only [hkz, decide_false, Bool.not_false]
    · simp only [hkz, decide_false]
    · simp only [if_neg hkz, toKey_self, hkey]
    · exact Bytes.fit_of_length (length_trieRoot_leaf hv32)
  · rcases r with _ | r
    · rw [ht] at hrow
      exact hrow.elim
    -- a subtree: its row has the zero key and the hash of its chunk
    · rw [ht, storedRow_branch] at hrow
      rw [ht] at hread
      obtain ⟨h, sb, bn, hrow, hstored⟩ := hrow
      have hh32 : Bytes.fit 32 h = h := by
        obtain ⟨rows', rfl, -⟩ := hstored
        exact Bytes.fit_of_length (keccak _).2
      have hh0 : h ≠ Bytes.zeros 32 := by
        obtain ⟨rows', rfl, -, hne, -⟩ := hstored
        exact hne
      refine ⟨_, loadRow_eq hlen (levelOf (r + 1 + 1)) j (Bytes.length_zeros 8) hrow
        (by rw [hh32]; exact hh0) .nil, ?_⟩
      refine ⟨_, _, rfl, levelOf_sub (r + 1), ?_, fun _ => ?_, Or.inl ⟨?_, rfl, fun _ => rfl, ?_⟩⟩
      · simp only [decide_true, Bool.not_true]
      · exact Bytes.fit_of_length length_trieRoot_branch
      · simp only [decide_true]
      · simp only [hh32]
        exact ⟨hstored, hread⟩

/-- The values of the terminals in memory have 32 bytes. -/
def Terminals32 : Node → Prop
  | .nil => True
  | .mk d c => (d.terminal = true → d.chunkHash.length = 32) ∧ ∀ j, Terminals32 (c j)

theorem loadRow_terminals32 {level : ℤ} {chunk : Bytes} {j : Fin 16} {old n : Node}
    (hold : Terminals32 old) (h : loadRow level chunk j old = .ok n) : Terminals32 n := by
  simp only [loadRow] at h
  split at h
  · cases h
  · split at h
    · rw [← Except.ok.inj h]
      exact hold
    · split at h
      · cases h
      · rename_i hlen
        rw [← Except.ok.inj h]
        refine ⟨fun _ => Bytes.length_slice ?_, fun _ => trivial⟩
        omega

/-- Whatever is loaded, its values have 32 bytes. -/
theorem load_terminals32 {pcs : Reader} {d d' : NodeData} {c c' : Fin 16 → Node}
    (hc : ∀ j, Terminals32 (c j)) (h : load pcs d c = .ok (d', c')) : ∀ j, Terminals32 (c' j) := by
  rw [load] at h
  split at h
  · rcases hp : pcs d.chunkHash with _ | _ | chunk
    · simp only [hp, Except.ok.injEq, Prod.mk.injEq] at h
      rwa [← h.2]
    · simp only [hp, Except.ok.injEq, Prod.mk.injEq] at h
      rwa [← h.2]
    · rcases hrows : collect (fun j => loadRow d.level chunk j (c j)) with e | c₁
      · simp only [hp, hrows, bind, Except.bind, reduceCtorEq] at h
      · simp only [hp, hrows, bind, Except.bind, Except.ok.injEq, Prod.mk.injEq] at h
        obtain ⟨-, rfl⟩ := h
        intro j
        exact loadRow_terminals32 (hc j) (collect_eq_ok.mp hrows j)
  · obtain ⟨-, rfl⟩ := Prod.mk.inj (Except.ok.inj h)
    exact hc

/-- What is found in a tree whose terminals have 32 bytes has 32 bytes. -/
theorem get_terminals32 {pcs : Reader} {r : ℕ} {k : Key} {n n' : Node} {e : Entry}
    (hn : Terminals32 n) (h : get pcs r k n = .ok (some e, n')) : e.value.length = 32 := by
  induction r generalizing n n' with
  | zero =>
    rcases n with _ | ⟨d, c⟩
    · cases h
    · cases h
  | succ r ih =>
    rcases n with _ | ⟨d, c⟩
    · cases h
    rw [get] at h
    rcases hl : load pcs d c with p | ⟨d₁, c₁⟩
    · simp only [hl, bind, Except.bind, reduceCtorEq] at h
    have hc := load_terminals32 hn.2 hl (keypiece k (nkeypieces - (r + 1)))
    simp only [hl, bind, Except.bind] at h
    -- a value is found in a terminal, and those have hashes of 32 bytes
    rcases hchild : c₁ (keypiece k (nkeypieces - (r + 1))) with _ | ⟨cd, cc⟩
    · simp only [hchild, Except.ok.injEq, Prod.mk.injEq, reduceCtorEq, false_and] at h
    rw [hchild] at hc
    simp only [hchild] at h
    split_ifs at h with hterm hkey
    · obtain ⟨he, -⟩ := Prod.mk.inj (Except.ok.inj h)
      rw [← Option.some.inj he]
      exact hc.1 hterm
    · cases h
    · rcases hg : get pcs r k (.mk cd cc) with p | ⟨res, child⟩
      · simp only [hg, reduceCtorEq] at h
      · simp only [hg, Except.ok.injEq, Prod.mk.injEq] at h
        rw [h.1] at hg
        exact ih hc hg

/-- `Get` on a tree that was opened from the store finds values of 32 bytes only, whatever the
store answers. -/
theorem openedGet_length {cs : Reader} {root : Hash} {k : Key} {n : Node}
    {res : SparseMerkleTree.Found}
    (h : SparseMerkleTree.get keccak cs k
      (SparseMerkleTree.initWithRoot cs root SparseMerkleTree.new).2 = .ok (res, n))
    (hf : res.found = true) : res.v0.length = 32 := by
  have hopen : Terminals32 (SparseMerkleTree.initWithRoot cs root SparseMerkleTree.new).2 := by
    have hnew : Terminals32 SparseMerkleTree.new := ⟨fun h => (by cases h), fun _ => trivial⟩
    unfold SparseMerkleTree.initWithRoot
    split
    · split
      · exact hnew
      · exact ⟨fun h => (by cases h), fun _ => trivial⟩
    · exact hnew
    · exact hnew
  rw [SparseMerkleTree.get] at h
  rcases hg : get cs nkeypieces k (SparseMerkleTree.initWithRoot cs root SparseMerkleTree.new).2
    with p | ⟨_ | e, n₁⟩
  · simp only [hg, bind, Except.bind, reduceCtorEq] at h
  · simp only [hg, bind, Except.bind, Except.ok.injEq, Prod.mk.injEq] at h
    rw [← h.1] at hf
    cases hf
  · rcases hp : generateProof keccak cs nkeypieces k ⟨k, [], 0⟩ n₁ with p | ⟨ok, p, n₂⟩
    · simp only [hg, hp, bind, Except.bind, reduceCtorEq] at h
    · simp only [hg, hp, bind, Except.bind, Except.ok.injEq, Prod.mk.injEq] at h
      rw [← h.1]
      exact get_terminals32 hopen hg

/-- The store answers as it has to. -/
theorem Backing.store_serves (s : Store) : (Backing.store keccak s).Serves keccak R s.getChunk where
  clean := fun r h ts hu => Or.inl hu.1
  rows := by
    intro r h ts ⟨⟨rows, hh, hfound, _, hrows⟩, hread⟩
    refine ⟨nodeChunk rows, ?_, fun j => loadRow_represents hrows (hread j)⟩
    rw [Store.getChunk, hh, hfound]

/-! ## Writing -/

/-- The row that a flush writes for a child. -/
theorem storedRow_row {s : Store} {r : ℕ} (hr : r < nkeypieces) {n : Node} {t : EntryTrie}
    (hn : Represents keccak Fresh (Backing.store keccak s).allLoaded r n t)
      (hclean : CleanInner n) :
    StoredRow keccak s r (row n) t := by
  rcases t with _ | ⟨k, e⟩ | ts
  · rw [represents_nil.mp hn, storedRow_nil]
    rfl
  · obtain ⟨d, rfl, hd, hroot⟩ := represents_leaf.mp hn
    refine storedRow_leaf.mpr ⟨d.key, hd.key, ?_⟩
    rw [row_mk, if_pos hd.terminal, hd.value, hd.storageBytes, hd.blockNum, hroot trivial]
  · rcases r with _ | r
    · exact hn.elim
    · obtain ⟨d, c, rfl, -, hterm, hroot, ⟨-, -, -, hfalse⟩ | ⟨-, hs, -⟩⟩ := hn
      · exact hfalse.elim
      · have hstored : Stored keccak s (r + 1) d.chunkHash ts := by
          rcases hs (hclean d c rfl hterm) with hst | ⟨htop, -⟩
          · exact hst
          · -- only the root can be clean without a chunk
            omega
        refine storedRow_branch.mpr ⟨d.chunkHash, d.storageBytes, d.blockNum, ?_, hstored⟩
        rw [row_mk, if_neg (by simp [hterm]), hroot trivial]

theorem length_row (n : Node) : (row n).length = bytesPerChild := by
  rcases n with _ | ⟨d, c⟩
  · rfl
  · rw [row_mk]
    apply length_rowBytes
    split
    · exact d.key.2
    · exact Bytes.length_zeros 8

/-- `flush` writes node chunks, each under its own hash. -/
theorem flush_writes (n : Node) :
    ∀ w ∈ (flush keccak n).2, w.1 = (keccak w.2).1 ∧ w.2.length = chunkSize := by
  induction n with
  | nil =>
    intro w hw
    simp [flush] at hw
  | mk d c ih =>
    intro w hw
    by_cases hd : d.dirty = true
    · rw [flush_dirty hd, List.mem_append, List.mem_flatMap, List.mem_singleton] at hw
      rcases hw with ⟨j, -, hw⟩ | rfl
      · rw [flushChild] at hw
        split at hw
        · exact ih j w hw
        · cases hw
      · exact ⟨rfl, length_nodeChunk fun j => length_row _⟩
    · rw [flush_clean (by simpa using hd)] at hw
      cases hw

theorem Backing.store_clean_mono {s s' : Store} (hkeep : s.Keeps keccak s') {r : ℕ} {h : Bytes}
    {ts : Fin 16 → EntryTrie} (hc : (Backing.store keccak s).clean r h ts) :
    (Backing.store keccak s').clean r h ts := by
  rcases hc with hst | htop
  · exact Or.inl (hst.mono hkeep)
  · exact Or.inr htop

/-- A store with the written chunks, and all chunks from before, may be relied on. -/
theorem Backing.store_accepts {s s' : Store} {writes : List (Bytes × Bytes)}
    (hkeep : s.Keeps keccak s') (hwrites : ∀ w ∈ writes, s'.lookup w.1 = some w.2)
    (hzero : ∀ w ∈ writes, w.1 ≠ Bytes.zeros 32) :
    (Backing.store keccak s).Accepts keccak (Backing.store keccak s') writes where
  keep := fun _ _ _ => Backing.store_clean_mono hkeep
  write := by
    intro r c ts hr hc hclean hw
    refine Or.inl ⟨fun j => row (c j), rfl, hwrites _ hw, hzero _ hw, fun j => ?_⟩
    exact storedRow_row hr (hc j) (hclean j)

end GoPlasma.Smt
