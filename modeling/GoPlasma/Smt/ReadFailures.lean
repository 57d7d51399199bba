import GoPlasma.Smt.SharedStore

/-!
# Reads that fail

`load` answers a read that fails, or that finds nothing, with the node as it was: unloaded and
without children. The walks go on as if the node had none.

`Store.find` and `Store.way` read a stored tree (`ChunkTree`) along a key, and `get_lossy` says what
`get` makes of it when only some of the chunks can be read. Which chunks a stored tree has is all
that counts here, not what Merkle roots they have: a tree that was flushed while reads failed has
wrong ones.
-/

namespace GoPlasma.Smt

variable {keccak : Bytes → Hash} {s : Store} {pcs : Reader}

/-! ## Readers -/

/-- The read succeeds. -/
def reads (pcs : Reader) (h : Bytes) : Bool :=
  match pcs h with
  | .err => false
  | .notFound => false
  | .found _ => true

/-- A reader of the store some of whose reads fail, or report that there is no chunk. -/
def Lossy (s : Store) (pcs : Reader) : Prop :=
  ∀ h chunk, pcs h = .found chunk → s.lookup h = some chunk

theorem reads_eq_true {h : Bytes} : reads pcs h = true ↔ ∃ chunk, pcs h = .found chunk := by
  unfold reads
  rcases pcs h with _ | _ | chunk
  · simp
  · simp
  · simp

theorem Lossy.found (hl : Lossy s pcs) {h chunk : Bytes} (hs : s.lookup h = some chunk)
    (hr : reads pcs h = true) : pcs h = .found chunk := by
  obtain ⟨chunk', hfound⟩ := reads_eq_true.mp hr
  rw [hfound, Option.some.inj ((hl h chunk' hfound).symm.trans hs)]

theorem lossy_getChunk (s : Store) : Lossy s s.getChunk := by
  intro h chunk hfound
  rw [Store.getChunk] at hfound
  rcases hs : s.lookup h with _ | chunk'
  · simp only [hs, reduceCtorEq] at hfound
  · simp only [hs, ChunkRead.found.injEq] at hfound
    rw [hfound]

theorem reads_getChunk {h chunk : Bytes} (hs : s.lookup h = some chunk) :
    reads s.getChunk h = true := by
  simp only [reads, Store.getChunk, hs]

/-- A load whose read fails changes nothing. -/
theorem load_unread {d : NodeData} (hr : reads pcs d.chunkHash = false) (c : Fin 16 → Node) :
    load pcs d c = .ok (d, c) := by
  rw [reads] at hr
  rw [load]
  rcases hp : pcs d.chunkHash with _ | _ | chunk
  · split <;> rfl
  · split <;> rfl
  · simp only [hp, Bool.true_eq_false] at hr

/-! ## Rows -/

/-- The fields of a node that is there. -/
def Node.data? : Node → Option NodeData
  | .nil => none
  | .mk d _ => some d

/-- What row `j` says, in the chunk of a node with `r + 1` key pieces below it. -/
def rowAt (r : ℕ) (chunk : Bytes) (j : Fin 16) : Option NodeData :=
  (loadRow (levelOf (r + 1)) chunk j .nil).toOption.bind Node.data?

/-- The node of a row, where there is one. -/
def rowNode (old : Node) (row : Option NodeData) : Node :=
  row.elim old fun d => .mk d fun _ => .nil

/-- The node of a row, as it has just been read. -/
structure RowData (r : ℕ) (d : NodeData) : Prop where
  level : d.level = levelOf r
  dirty : d.dirty = false
  unloaded : d.unloaded = !d.terminal
  length : d.chunkHash.length = 32
  hash : d.chunkHash ≠ Bytes.zeros 32
  key : d.terminal = true → num d.key ≠ 0

theorem row_bound (j : Fin 16) : (j : ℕ) * bytesPerChild + 88 ≤ chunkSize := by
  have hlt := j.isLt
  unfold bytesPerChild chunkSize
  omega

theorem loadRow_rowAt {chunk : Bytes} (hlen : chunk.length = chunkSize) (r : ℕ) (j : Fin 16)
    (old : Node) :
    loadRow (levelOf (r + 1)) chunk j old = .ok (rowNode old (rowAt r chunk j)) := by
  have hj := row_bound j
  rw [← hlen] at hj
  unfold rowAt loadRow
  simp only [show ¬ chunk.length < (j : ℕ) * bytesPerChild + 40 by omega,
    show ¬ chunk.length < (j : ℕ) * bytesPerChild + 88 by omega, if_false]
  split
  · rfl
  · rfl

theorem num_ne_zero {k : Key} (h : k.1 ≠ Bytes.zeros 8) : num k ≠ 0 := by
  intro hz
  rw [← num_zeroKey] at hz
  exact h (congrArg Subtype.val (num_inj hz))

theorem rowAt_data {chunk : Bytes} (hlen : chunk.length = chunkSize) {r : ℕ} {j : Fin 16}
    {d : NodeData} (h : rowAt r chunk j = some d) : RowData r d := by
  have hj := row_bound j
  rw [← hlen] at hj
  unfold rowAt loadRow at h
  simp only [show ¬ chunk.length < (j : ℕ) * bytesPerChild + 40 by omega,
    show ¬ chunk.length < (j : ℕ) * bytesPerChild + 88 by omega, if_false] at h
  split at h
  · cases h
  · rename_i hhash
    obtain rfl := Option.some.inj h
    have hkey : (Bytes.slice chunk ((j : ℕ) * bytesPerChild) 8).length = 8 :=
      Bytes.length_slice (by omega)
    refine ⟨levelOf_sub r, rfl, ?_, Bytes.length_slice (by omega), hhash, ?_⟩
    · simp only [Bool.not_not]
    · intro hterm
      have hblank : Bytes.slice chunk ((j : ℕ) * bytesPerChild) 8 ≠ Bytes.zeros 8 := by
        simpa using hterm
      simp only [hblank, decide_false, Bool.false_eq_true, if_false]
      apply num_ne_zero
      rw [toKey]
      simp only [Bytes.fit_of_length hkey]
      exact hblank

/-! ## Stored trees -/

/-- What a terminal holds under a key. -/
def entryOf (k : Key) (d : NodeData) : Option Entry :=
  if k = d.key then some ⟨d.chunkHash, d.storageBytes, d.blockNum⟩ else none

/-- The row of a key in the chunk under `h`. -/
def Store.rowOf (s : Store) (r : ℕ) (h : Bytes) (k : Key) : Option NodeData :=
  (s.lookup h).bind fun chunk => rowAt r chunk (keypiece k (nkeypieces - (r + 1)))

/-- What the tree whose chunk is under `h` holds under a key, `r` pieces above the bottom. -/
def Store.find (s : Store) : ℕ → Bytes → Key → Option Entry
  | 0, _, _ => none
  | r + 1, h, k => (s.rowOf r h k).bind fun d =>
      if d.terminal then entryOf k d else s.find r d.chunkHash k

/-- The chunks on the way of a key. -/
def Store.way (s : Store) : ℕ → Bytes → Key → List Bytes
  | 0, _, _ => []
  | r + 1, h, k => h :: (s.rowOf r h k).elim [] fun d =>
      if d.terminal then [] else s.way r d.chunkHash k

variable (keccak) in
/-- The chunk under `h` is that of a node with `r` key pieces below it, whose keys begin with the
digits of `p`: it has the size of a node chunk and is stored under its hash, and so are the chunks
of its subtrees. Terminals are where their keys say, at a height of `b` at least. -/
def ChunkTree (s : Store) (b : ℕ) : ℕ → ℕ → Bytes → Prop
  | 0, _, _ => False
  | r + 1, p, h =>
    ∃ chunk, s.lookup h = some chunk ∧ h = (keccak chunk).1 ∧ chunk.length = chunkSize ∧
      ∀ j d, rowAt r chunk j = some d →
        (d.terminal = true → b ≤ r ∧ num d.key / 16 ^ r = 16 * p + j) ∧
        (d.terminal = false → ChunkTree s b r (16 * p + j) d.chunkHash)

variable (keccak) in
/-- The rows of a node of a stored tree. -/
def RowTrees (s : Store) (b r p : ℕ) (chunk : Bytes) : Prop :=
  ∀ j d, rowAt r chunk j = some d →
    (d.terminal = true → b ≤ r ∧ num d.key / 16 ^ r = 16 * p + j) ∧
    (d.terminal = false → ChunkTree keccak s b r (16 * p + j) d.chunkHash)

section
variable {b r p : ℕ} {h : Bytes} {k : Key} {d : NodeData}

theorem find_none (hrow : s.rowOf r h k = none) : s.find (r + 1) h k = none := by
  rw [Store.find, hrow]
  rfl

theorem find_terminal (hrow : s.rowOf r h k = some d) (hterm : d.terminal = true) :
    s.find (r + 1) h k = entryOf k d := by
  rw [Store.find, hrow, Option.bind_some, if_pos hterm]

theorem find_inner (hrow : s.rowOf r h k = some d) (hterm : d.terminal = false) :
    s.find (r + 1) h k = s.find r d.chunkHash k := by
  rw [Store.find, hrow, Option.bind_some, if_neg (by simp [hterm])]

theorem rowOf_eq {chunk : Bytes} (hs : s.lookup h = some chunk) :
    s.rowOf r h k = rowAt r chunk (keypiece k (nkeypieces - (r + 1))) := by
  rw [Store.rowOf, hs, Option.bind_some]

/-- A height that is asked of the terminals can be lowered. -/
theorem ChunkTree.lower {b' : ℕ} (hb : b' ≤ b) (ht : ChunkTree keccak s b r p h) :
    ChunkTree keccak s b' r p h := by
  induction r generalizing p h with
  | zero => exact ht.elim
  | succ r ih =>
    obtain ⟨chunk, hs, hh, hlen, hrows⟩ := ht
    refine ⟨chunk, hs, hh, hlen, fun j d hrow => ?_⟩
    obtain ⟨hleaf, hinner⟩ := hrows j d hrow
    exact ⟨fun hterm => ⟨hb.trans (hleaf hterm).1, (hleaf hterm).2⟩, fun hterm => ih (hinner hterm)⟩

/-- The tree is still there in a store that keeps the node chunks. -/
theorem ChunkTree.mono {s' : Store} (hkeep : s.Keeps keccak s') (ht : ChunkTree keccak s b r p h) :
    ChunkTree keccak s' b r p h ∧ ∀ k, s'.find r h k = s.find r h k := by
  induction r generalizing p h with
  | zero => exact ht.elim
  | succ r ih =>
    obtain ⟨chunk, hs, hh, hlen, hrows⟩ := ht
    have hs' : s'.lookup h = some chunk := by
      rw [hh] at hs ⊢
      exact hkeep chunk hlen hs
    refine ⟨⟨chunk, hs', hh, hlen, fun j d hrow => ⟨(hrows j d hrow).1, fun hterm => ?_⟩⟩, ?_⟩
    · exact (ih ((hrows j d hrow).2 hterm)).1
    · intro k
      rw [Store.find, Store.find, rowOf_eq hs, rowOf_eq hs']
      rcases hrow : rowAt r chunk (keypiece k (nkeypieces - (r + 1))) with _ | d
      · rfl
      · rw [Option.bind_some, Option.bind_some]
        split
        · rfl
        · rename_i hterm
          exact (ih ((hrows _ d hrow).2 (by simpa using hterm))).2 k

/-- Where a key is found, there is room for a terminal of the height that is asked for. -/
theorem ChunkTree.le_of_find (ht : ChunkTree keccak s b (r + 1) p h)
    (hk : s.find (r + 1) h k ≠ none) : b ≤ r := by
  induction r generalizing p h with
  | zero =>
    obtain ⟨chunk, hs, -, -, hrows⟩ := ht
    rcases hrow : s.rowOf 0 h k with _ | d
    · exact (hk (find_none hrow)).elim
    · rw [rowOf_eq hs] at hrow
      rcases hterm : d.terminal with _ | _
      · exact ((hrows _ d hrow).2 hterm).elim
      · exact ((hrows _ d hrow).1 hterm).1
  | succ r ih =>
    obtain ⟨chunk, hs, -, -, hrows⟩ := ht
    rcases hrow : s.rowOf (r + 1) h k with _ | d
    · exact (hk (find_none hrow)).elim
    · have hrow' := hrow
      rw [rowOf_eq hs] at hrow'
      rcases hterm : d.terminal with _ | _
      · rw [find_inner hrow hterm] at hk
        exact (ih ((hrows _ d hrow').2 hterm) hk).trans (Nat.le_succ r)
      · exact ((hrows _ d hrow').1 hterm).1

/-- The store has every chunk on the way of a key. -/
theorem ChunkTree.reads_way (ht : ChunkTree keccak s b r p h) :
    ∀ g ∈ s.way r h k, reads s.getChunk g = true := by
  induction r generalizing p h with
  | zero => exact ht.elim
  | succ r ih =>
    obtain ⟨chunk, hs, -, -, hrows⟩ := ht
    intro g hg
    rw [Store.way, rowOf_eq hs, List.mem_cons] at hg
    rcases hg with rfl | hg
    · exact reads_getChunk hs
    · rcases hrow : rowAt r chunk (keypiece k (nkeypieces - (r + 1))) with _ | d
      · rw [hrow] at hg
        cases hg
      · rw [hrow, Option.elim_some] at hg
        split at hg
        · cases hg
        · rename_i hterm
          exact ih ((hrows _ d hrow).2 (by simpa using hterm)) g hg

theorem ChunkTree.hash (ht : ChunkTree keccak s b r p h) :
    ∃ chunk, h = (keccak chunk).1 ∧ s.lookup (keccak chunk).1 = some chunk := by
  rcases r with _ | r
  · exact ht.elim
  · obtain ⟨chunk, hs, rfl, -⟩ := ht
    exact ⟨chunk, rfl, hs⟩

end

/-! ## Lookups -/

/-- A node that has only its chunk hash. -/
structure Unread (r : ℕ) (h : Bytes) (d : NodeData) : Prop where
  level : d.level = levelOf r
  terminal : d.terminal = false
  dirty : d.dirty = false
  unloaded : d.unloaded = true
  chunkHash : d.chunkHash = h

theorem RowData.unread {r : ℕ} {d : NodeData} (hd : RowData r d) (hterm : d.terminal = false) :
    Unread r d.chunkHash d :=
  ⟨hd.level, hterm, hd.dirty, by rw [hd.unloaded, hterm]; rfl, rfl⟩

/-- Loading a node whose chunk can be read: the rows that are not blank replace the children. -/
theorem load_read (hl : Lossy s pcs) {r : ℕ} {chunk : Bytes} {d : NodeData}
    (hlev : d.level = levelOf (r + 1)) (hu : d.unloaded = true)
    (hs : s.lookup d.chunkHash = some chunk) (hlen : chunk.length = chunkSize)
    (hr : reads pcs d.chunkHash = true) (c : Fin 16 → Node) :
    load pcs d c
      = .ok ({ d with unloaded := false }, fun j => rowNode (c j) (rowAt r chunk j)) := by
  have hcollect : collect (fun j => loadRow d.level chunk j (c j))
      = .ok fun j => rowNode (c j) (rowAt r chunk j) := by
    apply collect_eq_ok.mpr
    intro j
    rw [hlev]
    exact loadRow_rowAt hlen r j (c j)
  rw [load, if_pos hu, hl.found hs hr]
  simp only [hcollect, bind, Except.bind]

theorem computeMerkleRootCache_ok (keccak : Bytes → Hash) {r : ℕ} (hr : r < nkeypieces)
    (c : Fin 16 → Node) :
    computeMerkleRootCache keccak (levelOf (r + 1)) c
      = .ok (mrcache keccak (slots keccak (levelOf (r + 1)) c) bitsPerPiece 0) := by
  rw [computeMerkleRootCache, if_pos]
  unfold levelOf nkeypieces treeDepth at *
  omega

variable (keccak pcs) in
/-- A proof can be generated at the node. -/
def Proves (r : ℕ) (k : Key) (n : Node) : Prop :=
  ∀ p, ∃ p' n', generateProof keccak pcs r k p n = .ok (true, p', n')

/-- A node proves what its child proves. -/
theorem proves_succ {r : ℕ} (hr : r < nkeypieces) {k : Key} {d : NodeData} {c : Fin 16 → Node}
    (hlev : d.level = levelOf (r + 1)) (hd : d.unloaded = false) {cd : NodeData}
    {cc : Fin 16 → Node} (hc : c (keypiece k (nkeypieces - (r + 1))) = .mk cd cc)
    (hcd : cd.unloaded = false) (hchild : cd.terminal = true ∨ Proves keccak pcs r k (.mk cd cc)) :
    Proves keccak pcs (r + 1) k (.mk d c) := by
  intro p
  obtain ⟨p', n', hgen⟩ : ∃ p' n', childProof (generateProof keccak pcs r k) p cd cc
      = .ok (true, p', n') := by
    rw [childProof]
    rcases hterm : cd.terminal with _ | _
    · obtain ⟨p', n', hgen⟩ := (hchild.resolve_left (by simp [hterm])) p
      exact ⟨p', n', by simpa using hgen⟩
    · exact ⟨_, _, rfl⟩
  unfold generateProof
  simp only [load_of_loaded hd, bind, Except.bind, hc, load_of_loaded hcd, hgen, if_true, hlev,
    computeMerkleRootCache_ok keccak hr]
  exact ⟨_, _, rfl⟩

/-- `get` at a node that has not been read finds what is stored, if it can read every chunk on the
way, and else nothing. -/
theorem get_lossy (hl : Lossy s pcs) {b r p : ℕ} (hr : r ≤ nkeypieces) {h : Bytes}
    (ht : ChunkTree keccak s b r p h) {d : NodeData} (hd : Unread r h d) (k : Key) :
    ∃ d' c', get pcs r k (.mk d fun _ => .nil)
        = .ok (if ∀ g ∈ s.way r h k, reads pcs g = true then s.find r h k else none, .mk d' c')
      ∧ ((∀ g ∈ s.way r h k, reads pcs g = true) → s.find r h k ≠ none →
        d'.unloaded = false ∧ Proves keccak pcs r k (.mk d' c')) := by
  induction r generalizing p h d with
  | zero => exact ht.elim
  | succ r ih =>
    obtain ⟨chunk, hs, -, hlen, hrows⟩ := ht
    rcases hread : reads pcs h with _ | _
    · -- the node stays without children
      have hway : ¬ ∀ g ∈ s.way (r + 1) h k, reads pcs g = true := by
        intro hall
        have hfirst := hall h List.mem_cons_self
        rw [hread] at hfirst
        cases hfirst
      refine ⟨d, fun _ => .nil, ?_, fun hall => (hway hall).elim⟩
      unfold get
      simp only [load_unread (hd.chunkHash ▸ hread), bind, Except.bind, if_neg hway]
    · have hload := load_read hl hd.level hd.unloaded (hd.chunkHash ▸ hs) hlen
        (hd.chunkHash ▸ hread)
        fun _ => .nil
      unfold get
      simp only [hload, bind, Except.bind]
      rcases hrow : rowAt r chunk (keypiece k (nkeypieces - (r + 1))) with _ | cd
      · have hfind : s.find (r + 1) h k = none := find_none ((rowOf_eq hs).trans hrow)
        simp only [rowNode, Option.elim_none, hfind, ite_self]
        exact ⟨_, _, rfl, fun _ hne => (hne rfl).elim⟩
      · have hcd := rowAt_data hlen hrow
        have hrowOf : s.rowOf r h k = some cd := (rowOf_eq hs).trans hrow
        rcases hterm : cd.terminal with _ | _
        · have hway : (∀ g ∈ s.way (r + 1) h k, reads pcs g = true)
              ↔ ∀ g ∈ s.way r cd.chunkHash k, reads pcs g = true := by
            rw [Store.way, hrowOf]
            simp [hterm, hread]
          obtain ⟨d', c', hget, hproof⟩ := ih (by omega) ((hrows _ cd hrow).2 hterm)
            (hcd.unread hterm)
          simp only [rowNode, Option.elim_some, hterm, Bool.false_eq_true, if_false, hget, hway,
            find_inner hrowOf hterm]
          refine ⟨_, _, rfl, fun hall hne => ⟨rfl, ?_⟩⟩
          obtain ⟨hun, hprove⟩ := hproof hall hne
          exact proves_succ (by omega) hd.level rfl (Function.update_self ..) hun (Or.inr hprove)
        · have hway : ∀ g ∈ s.way (r + 1) h k, reads pcs g = true := by
            rw [Store.way, hrowOf]
            simp [hterm, hread]
          rw [if_pos hway, find_terminal hrowOf hterm, entryOf]
          simp only [rowNode, Option.elim_some, hterm, if_true]
          by_cases hk : k = cd.key
          · simp only [if_pos hk]
            refine ⟨_, _, rfl, fun _ _ => ⟨rfl, ?_⟩⟩
            have hun : cd.unloaded = false := by rw [hcd.unloaded, hterm]; rfl
            have hc : rowNode .nil (rowAt r chunk (keypiece k (nkeypieces - (r + 1))))
                = .mk cd fun _ => .nil := by rw [hrow]; rfl
            exact proves_succ (by omega) hd.level rfl hc hun (Or.inl hterm)
          · simp only [if_neg hk]
            exact ⟨_, _, rfl, fun _ hne => (hne rfl).elim⟩

/-! ## Rows that have been written -/

section
variable {r : ℕ} {j : Fin 16} {rows : Fin 16 → Bytes} {hash root : Bytes} {sb bn : UInt64}

theorem rowAt_blank (hlen : ∀ j, (rows j).length = bytesPerChild)
    (hrow : rows j = Bytes.zeros bytesPerChild) : rowAt r (nodeChunk rows) j = none := by
  rw [rowAt, loadRow_blank hlen (levelOf (r + 1)) j hrow .nil]
  rfl

theorem rowAt_terminal (hlen : ∀ j, (rows j).length = bytesPerChild) {key : Key}
    (hrow : rows j = rowBytes key.1 hash sb root bn)
    (hread : ReadableEntry (num key) ⟨hash, sb, bn⟩) :
    ∃ d, rowAt r (nodeChunk rows) j = some d ∧ d.terminal = true ∧ d.key = key
      ∧ ∀ k, entryOf k d = if k = key then some ⟨hash, sb, bn⟩ else none := by
  obtain ⟨hk, h32, hne⟩ := hread
  have hhash : Bytes.fit 32 hash = hash := Bytes.fit_of_length h32
  rw [rowAt, loadRow_eq hlen (levelOf (r + 1)) j key.2 hrow (by rw [hhash]; exact hne)]
  refine ⟨_, rfl, ?_, ?_, fun k => ?_⟩
  · simp only [key_ne_zeros hk, decide_false, Bool.not_false]
  · simp only [if_neg (key_ne_zeros hk), toKey_self]
  · simp only [entryOf, if_neg (key_ne_zeros hk), toKey_self, hhash]

theorem rowAt_inner (hlen : ∀ j, (rows j).length = bytesPerChild)
    (hrow : rows j = rowBytes (Bytes.zeros 8) hash sb root bn) (h32 : hash.length = 32)
    (hne : hash ≠ Bytes.zeros 32) :
    ∃ d, rowAt r (nodeChunk rows) j = some d ∧ d.terminal = false ∧ d.chunkHash = hash := by
  have hhash : Bytes.fit 32 hash = hash := Bytes.fit_of_length h32
  rw [rowAt, loadRow_eq hlen (levelOf (r + 1)) j (Bytes.length_zeros 8) hrow
    (by rw [hhash]; exact hne)]
  refine ⟨_, rfl, ?_, hhash⟩
  simp only [decide_true, Bool.not_true]

end

variable (keccak) in
/-- What a row says of the keys of its slot, in a node with `r + 1` key pieces below it; the keys
of the slot begin with the digits of `p`. -/
def RowSays (s : Store) (b r p : ℕ) (row : Option NodeData) (g : Key → Option Entry) : Prop :=
  (row = none ∧ ∀ k, g k = none)
    ∨ (∃ d, row = some d ∧ d.terminal = true ∧ (b ≤ r ∧ num d.key / 16 ^ r = p)
      ∧ ∀ k, entryOf k d = g k)
    ∨ ∃ d, row = some d ∧ d.terminal = false ∧ ChunkTree keccak s b r p d.chunkHash
      ∧ ∀ k, s.find r d.chunkHash k = g k

/-- A stored tree, by what its rows say. -/
theorem chunkTree_of_rows {b r p : ℕ} {chunk : Bytes} (hs : s.lookup (keccak chunk).1 = some chunk)
    (hlen : chunk.length = chunkSize) {g : Fin 16 → Key → Option Entry}
    (hrows : ∀ j : Fin 16, RowSays keccak s b r (16 * p + j) (rowAt r chunk j) (g j)) :
    ChunkTree keccak s b (r + 1) p (keccak chunk).1
      ∧ ∀ k, s.find (r + 1) (keccak chunk).1 k = g (keypiece k (nkeypieces - (r + 1))) k := by
  refine ⟨⟨chunk, hs, rfl, hlen, fun j d hd => ?_⟩, fun k => ?_⟩
  · rcases hrows j with ⟨hnone, -⟩ | ⟨d', hd', hterm, hb, -⟩ | ⟨d', hd', hterm, ht, -⟩
    · rw [hnone] at hd
      cases hd
    · obtain rfl := Option.some.inj (hd'.symm.trans hd)
      exact ⟨fun _ => hb, fun h => (Bool.false_ne_true (h.symm.trans hterm)).elim⟩
    · obtain rfl := Option.some.inj (hd'.symm.trans hd)
      exact ⟨fun h => (Bool.false_ne_true (hterm.symm.trans h)).elim, fun _ => ht⟩
  · rcases hrows (keypiece k (nkeypieces - (r + 1)))
      with ⟨hnone, hg⟩ | ⟨d, hd, hterm, -, hg⟩ | ⟨d, hd, hterm, -, hg⟩
    · rw [find_none ((rowOf_eq hs).trans hnone), hg]
    · rw [find_terminal ((rowOf_eq hs).trans hd) hterm, hg]
    · rw [find_inner ((rowOf_eq hs).trans hd) hterm, hg]

end GoPlasma.Smt
