import GoPlasma.Smt.MemoryTheorems
import GoPlasma.Smt.StorageTheorems

/-!
# The chunk hash of a tree in memory

When nothing is accounted for, the chunks of a tree that insertions have built depend on its
contents alone: the trie is determined by them (`Trie.ext_of_tight`), and a node that is not dirty
has the chunk hash of its trie (`trieChunk`), whenever it was flushed and in whatever order the
keys came (`history_independent`).
-/

namespace GoPlasma.Smt

variable {keccak : Bytes → Hash} {pcs : Reader}

/-! ## Nodes without accounting -/

/-- All nodes are in memory, and none has storage or a block number. -/
def Plain : Node → Prop
  | .nil => True
  | .mk d c => d.unloaded = false ∧ d.storageBytes = 0 ∧ d.blockNum = 0 ∧ ∀ j, Plain (c j)

theorem plain_mk {d : NodeData} {c : Fin 16 → Node} :
    Plain (.mk d c) ↔
      d.unloaded = false ∧ d.storageBytes = 0 ∧ d.blockNum = 0 ∧ ∀ j, Plain (c j) := Iff.rfl

theorem plain_update {c : Fin 16 → Node} (hc : ∀ j, Plain (c j)) {n : Node} (hn : Plain n)
    (idx j : Fin 16) : Plain (Function.update c idx n j) := by
  by_cases hj : j = idx
  · rw [hj, Function.update_self]
    exact hn
  · rw [Function.update_of_ne hj]
    exact hc j

theorem totalBytes_plain {c : Fin 16 → Node} (hc : ∀ j, Plain (c j)) : totalBytes c = 0 := by
  unfold totalBytes
  generalize List.finRange 16 = l
  induction l with
  | nil => rfl
  | cons i l ih =>
    have hi := hc i
    rw [List.foldl_cons]
    rcases hn : c i with _ | ⟨d, c'⟩
    · exact ih
    · rw [hn, plain_mk] at hi
      simp only [hi.2.1]
      exact ih

theorem insertChild_plain {ins : Key → Bytes → UInt64 → UInt64 → Node → Go Node}
    (hins : ∀ {k v n n'}, Plain n → ins k v 0 0 n = .ok n' → Plain n') {level : ℤ} {k : Key}
    {v : Bytes} {n n' : Node} (hn : Plain n) (h : insertChild ins level k v 0 0 n = .ok n') :
    Plain n' := by
  rcases n with _ | ⟨d, c⟩
  · obtain rfl := Except.ok.inj h
    exact ⟨rfl, rfl, rfl, fun _ => trivial⟩
  · obtain ⟨hu, hsb, hbn, hc⟩ := plain_mk.mp hn
    rw [insertChild] at h
    by_cases hterm : d.terminal = true
    · rw [if_pos hterm] at h
      by_cases hkey : d.key = k
      · rw [if_pos hkey] at h
        obtain rfl := Except.ok.inj h
        split_ifs
        · exact hn
        · refine ⟨hu, ?_, rfl, hc⟩
          rw [hsb]
          rfl
      · rw [if_neg hkey] at h
        rcases hm : ins d.key d.chunkHash d.storageBytes d.blockNum
            (.mk { d with dirty := true, terminal := false } c) with e | m
        · simp only [hm, bind, Except.bind] at h
          cases h
        · simp only [hm, bind, Except.bind] at h
          have hsplit : Plain (.mk { d with dirty := true, terminal := false } c) :=
            ⟨hu, hsb, hbn, hc⟩
          -- the old entry is inserted with its own accounting, which is zero
          have hold : ins d.key d.chunkHash 0 0
              (.mk { d with dirty := true, terminal := false } c) = .ok m := by
            simpa only [hsb, hbn] using hm
          exact hins (hins hsplit hold) h
    · rw [if_neg hterm] at h
      exact hins hn h

theorem insert_plain {r : ℕ} {k : Key} {v : Bytes} {n n' : Node} (hn : Plain n)
    (h : insert pcs r k v 0 0 n = .ok n') : Plain n' := by
  induction r generalizing k v n n' with
  | zero =>
    rcases n with _ | ⟨d, c⟩
    · cases h
    · rw [insert, load_of_loaded hn.1] at h
      obtain rfl := Except.ok.inj h
      exact hn
  | succ r ih =>
    rcases n with _ | ⟨d, c⟩
    · cases h
    · obtain ⟨hu, hsb, hbn, hc⟩ := plain_mk.mp hn
      rw [insert, load_of_loaded hu] at h
      rcases hm : insertChild (insert pcs r) d.level k v 0 0
          (c (keypiece k (nkeypieces - (r + 1)))) with e | m
      · simp only [bind, Except.bind, hm] at h
        cases h
      · simp only [bind, Except.bind, hm] at h
        obtain rfl := Except.ok.inj h
        have hall := plain_update hc (insertChild_plain ih (hc _) hm)
          (keypiece k (nkeypieces - (r + 1)))
        exact ⟨hu, totalBytes_plain hall, hbn, hall⟩

/-- A node with the same flags. -/
theorem cleanInner_mk {d d' : NodeData} {c c' : Fin 16 → Node}
    (h : (d'.terminal, d'.dirty) = (d.terminal, d.dirty)) (hn : CleanInner (.mk d c)) :
    CleanInner (.mk d' c') := by
  intro d₁ c₁ hmk hterm
  obtain ⟨rfl, -⟩ := Node.mk.inj hmk
  obtain ⟨ht, hd⟩ := Prod.mk.inj h
  rw [hd]
  exact hn d c rfl (ht ▸ hterm)

/-- `computeMerkleRoot` changes the Merkle roots alone. -/
theorem computeMerkleRoot_plain {fuel : ℕ} {n n' : Node} (hn : Plain n)
    (h : computeMerkleRoot keccak pcs fuel n = .ok n') :
    Plain n' ∧ SparseMerkleTree.rootHash n' = SparseMerkleTree.rootHash n
      ∧ (CleanInner n → CleanInner n') := by
  induction fuel generalizing n n' with
  | zero =>
    rcases n with _ | ⟨d, c⟩
    · cases h
    · cases h
  | succ fuel ih =>
    rcases n with _ | ⟨d, c⟩
    · cases h
    · obtain ⟨hu, hsb, hbn, hc⟩ := plain_mk.mp hn
      rw [computeMerkleRoot, load_of_loaded hu] at h
      simp only [bind, Except.bind] at h
      by_cases hterm : d.terminal = true
      · rw [if_pos hterm] at h
        rcases hr : terminalRoot keccak d with e | root
        · simp only [hr] at h
          cases h
        · simp only [hr] at h
          obtain rfl := Except.ok.inj h
          exact ⟨⟨hu, hsb, hbn, hc⟩, rfl, cleanInner_mk rfl⟩
      · rw [if_neg hterm] at h
        rcases hcol : collect (fun i => onChild (computeMerkleRoot keccak pcs fuel) (c i)) with
          e | c'
        · simp only [hcol] at h
          cases h
        · simp only [hcol] at h
          -- by induction, for the children that are there
          have hc' : ∀ j, Plain (c' j) := by
            intro j
            have hj := collect_eq_ok.mp hcol j
            rcases hn : c j with _ | ⟨dj, cj⟩
            · rw [hn] at hj
              obtain hj := Except.ok.inj hj
              rw [← hj]
              trivial
            · rw [hn, onChild] at hj
              exact (ih (hn ▸ hc j) hj).1
          rcases hr : computeMerkleRootCache keccak d.level c' with e | root
          · simp only [hr] at h
            cases h
          · simp only [hr] at h
            obtain rfl := Except.ok.inj h
            exact ⟨⟨hu, hsb, hbn, hc'⟩, rfl, cleanInner_mk rfl⟩

/-- `flush` keeps the accounting, and its chunks have the rows of such nodes. -/
theorem flush_plain {n : Node} (hn : Plain n) : Plain (flush keccak n).1
    ∧ ∀ w ∈ (flush keccak n).2, ∃ c : Fin 16 → Node, (∀ j, Plain (c j))
      ∧ w.2 = nodeChunk fun j => row (c j) := by
  induction n with
  | nil => exact ⟨trivial, fun w hw => by cases hw⟩
  | mk d c ih =>
    obtain ⟨hu, hsb, hbn, hc⟩ := plain_mk.mp hn
    by_cases hd : d.dirty = true
    · rw [flush_dirty hd]
      have hchild : ∀ j, Plain (flushChild keccak (c j)).1 := by
        intro j
        rw [flushChild]
        split
        · exact (ih j (hc j)).1
        · exact hc j
      refine ⟨⟨hu, hsb, hbn, hchild⟩, ?_⟩
      intro w hw
      rw [List.mem_append, List.mem_flatMap, List.mem_singleton] at hw
      -- a chunk of a child, or that of the node itself
      rcases hw with ⟨j, -, hw⟩ | rfl
      · rw [flushChild] at hw
        split at hw
        · exact (ih j (hc j)).2 w hw
        · cases hw
      · exact ⟨_, hchild, rfl⟩
    · rw [flush_clean (by simpa using hd)]
      exact ⟨hn, fun w hw => by cases hw⟩

/-! ## The chunks of a trie -/

section
variable (keccak)

/-- The row of a trie of height `r` in the chunk of its parent. -/
def trieRow : ℕ → EntryTrie → Bytes
  | _, .nil => Bytes.zeros bytesPerChild
  | r, .leaf k e =>
    rowBytes (keyOf k).1 e.value e.storageBytes (trieRoot keccak r (.leaf k e)) e.blockNum
  | 0, .branch _ => []
  | r + 1, .branch ts =>
    rowBytes (Bytes.zeros 8) (keccak (nodeChunk fun j => trieRow r (ts j))).1 0
      (trieRoot keccak (r + 1) (.branch ts)) 0

/-- The hash of the chunk of a node with these subtrees of height `r`. -/
def trieChunk (r : ℕ) (ts : Fin 16 → EntryTrie) : Bytes :=
  (keccak (nodeChunk fun j => trieRow keccak r (ts j))).1

/-- A node that is not dirty has the chunk hash of its trie, or is a new tree. -/
def Backing.canonical : Backing where
  clean := fun r h ts =>
    h = trieChunk keccak (r - 1) ts ∨ (r = nkeypieces ∧ h = [] ∧ ts = fun _ => .nil)
  unloaded := fun _ _ _ => False

end

theorem trieRow_nil (r : ℕ) : trieRow keccak r .nil = Bytes.zeros bytesPerChild := by
  unfold trieRow
  rfl

theorem trieRow_leaf (r k : ℕ) (e : Entry) : trieRow keccak r (.leaf k e)
    = rowBytes (keyOf k).1 e.value e.storageBytes (trieRoot keccak r (.leaf k e)) e.blockNum := by
  unfold trieRow
  rfl

theorem trieRow_branch (r : ℕ) (ts : Fin 16 → EntryTrie) : trieRow keccak (r + 1) (.branch ts)
    = rowBytes (Bytes.zeros 8) (trieChunk keccak r ts) 0 (trieRoot keccak (r + 1) (.branch ts)) 0 :=
  rfl

theorem Backing.canonical_serves (R : ℕ → Prop) (pcs : Reader) :
    (Backing.canonical keccak).Serves keccak R pcs where
  clean := fun _ _ _ h => h.elim
  rows := fun _ _ _ h => h.elim

/-- The accounting fields of the row of a plain node. -/
theorem slice_row_plain {n : Node} (hn : Plain n) :
    Bytes.slice (row n) 40 8 = uInt64ToByte 0 ∧ Bytes.slice (row n) 80 8 = uInt64ToByte 0 := by
  rcases n with _ | ⟨d, c⟩
  · exact ⟨rfl, rfl⟩
  · obtain ⟨-, hsb, hbn, -⟩ := plain_mk.mp hn
    have hkey : (if d.terminal then d.key.1 else Bytes.zeros 8).length = 8 := by
      split
      · exact d.key.2
      · exact Bytes.length_zeros 8
    rw [row_mk, slice_rowBytes_storageBytes hkey, slice_rowBytes_blockNum hkey, hsb, hbn]
    exact ⟨rfl, rfl⟩

theorem uInt64ToByte_inj {i j : UInt64} (h : uInt64ToByte i = uInt64ToByte j) : i = j := by
  rw [← bytesToUint64_uInt64ToByte i, h, bytesToUint64_uInt64ToByte]

/-- A row with the accounting fields of a plain node is that of a node without accounting. -/
theorem fields_of_row {d : NodeData} {c : Fin 16 → Node} {n : Node} (hn : Plain n)
    (h : row (.mk d c) = row n) (hterm : d.terminal = false) :
    d.storageBytes = 0 ∧ d.blockNum = 0 := by
  obtain ⟨hsb, hbn⟩ := slice_row_plain hn
  rw [← h, row_mk, if_neg (by simp [hterm])] at hsb hbn
  rw [slice_rowBytes_storageBytes (Bytes.length_zeros 8)] at hsb
  rw [slice_rowBytes_blockNum (Bytes.length_zeros 8)] at hbn
  exact ⟨uInt64ToByte_inj hsb, uInt64ToByte_inj hbn⟩

/-- A chunk determines its rows. -/
theorem row_of_nodeChunk {c c' : Fin 16 → Node}
    (h : (nodeChunk fun j => row (c j)) = nodeChunk fun j => row (c' j)) (j : Fin 16) :
    row (c j) = row (c' j) := by
  have hslice : ∀ c : Fin 16 → Node,
      Bytes.slice (nodeChunk fun j => row (c j)) (j * bytesPerChild + 0) bytesPerChild
        = row (c j) := by
    intro c
    rw [slice_nodeChunk (fun j => length_row (c j)) j (by decide), ← length_row (c j),
      Bytes.slice_zero_self]
  rw [← hslice c, h, hslice c']

/-- The row of a clean node without accounting is that of its trie. -/
theorem row_eq_trieRow {r : ℕ} (hr : r < nkeypieces) {n : Node} {t : EntryTrie}
    (hn : Represents keccak Fresh (Backing.canonical keccak).allLoaded r n t)
    (hclean : CleanInner n)
    (hzero : ∀ d c, n = .mk d c → d.terminal = false → d.storageBytes = 0 ∧ d.blockNum = 0) :
    row n = trieRow keccak r t := by
  rcases t with _ | ⟨k, e⟩ | ts
  · rw [represents_nil.mp hn, trieRow_nil]
    rfl
  · obtain ⟨d, rfl, hd, hroot⟩ := represents_leaf.mp hn
    rw [row_mk, if_pos hd.terminal, hd.value, hd.storageBytes, hd.blockNum, hroot trivial,
      trieRow_leaf, ← hd.key, keyOf_num]
  · rcases r with _ | r
    · exact hn.elim
    · obtain ⟨d, c, rfl, -, hterm, hroot, ⟨-, -, -, hfalse⟩ | ⟨-, hs, -⟩⟩ := hn
      · exact hfalse.elim
      · obtain ⟨hsb, hbn⟩ := hzero d c rfl hterm
        have hhash : d.chunkHash = trieChunk keccak r ts := by
          rcases hs (hclean d c rfl hterm) with hh | ⟨htop, -⟩
          · exact hh
          · -- only the root can be clean without a chunk
            omega
        rw [row_mk, if_neg (by simp [hterm]), hhash, hsb, hbn, hroot trivial, trieRow_branch]

/-- A flush without accounting writes the chunks of the tries. -/
theorem Backing.canonical_accepts {n : Node} (hn : Plain n) :
    (Backing.canonical keccak).Accepts keccak (Backing.canonical keccak) (flush keccak n).2 where
  keep := fun _ _ _ h => h
  write := by
    intro r c ts hr hc hclean hw
    obtain ⟨c₀, hplain, hchunk⟩ := (flush_plain hn).2 _ hw
    have hrows : ∀ j, row (c j) = trieRow keccak r (ts j) := by
      intro j
      apply row_eq_trieRow hr (hc j) (hclean j)
      intro d cj hj hterm
      have hrow := row_of_nodeChunk hchunk j
      rw [hj] at hrow
      exact fields_of_row (hplain j) hrow hterm
    refine Or.inl ?_
    rw [Nat.add_sub_cancel, trieChunk]
    simp only [hrows]

/-! ## Histories -/

/-- A call of a history: `Insert` without accounting, or `Flush`. -/
inductive Write where
  | insert (k : Key) (v : Bytes)
  | flush

/-- The call. -/
def Write.call : Write → Call
  | .insert k v => .insert k v 0 0
  | .flush => .flush

/-- The map from keys to values after a call. -/
def Write.apply (m : Key → Option Bytes) : Write → Key → Option Bytes
  | .insert k v => Function.update m k (some v)
  | .flush => m

/-- The map that a history ends in. -/
def finalMap (history : List Write) : Key → Option Bytes :=
  history.foldl Write.apply fun _ => none

/-- The contents without accounting that a map gives. -/
def plainContents (m : Key → Option Bytes) : Contents := fun k => (m k).map fun v => ⟨v, 0, 0⟩

theorem apply_plainContents (m : Key → Option Bytes) (w : Write) :
    w.call.apply (plainContents m) = plainContents (w.apply m) := by
  rcases w with ⟨k, v⟩ | _
  · ext k' : 1
    simp only [Write.call, Write.apply, Call.apply, plainContents, Function.update_apply]
    split_ifs with hk
    · rcases m k with _ | v'
      · rfl
      · rw [Option.map_some, updateEntry, Option.map_some]
        split_ifs with hv
        · rw [← hv]
        · rfl
    · rfl
  · rfl

/-- A tree of a history: it has the contents of the map, a trie that they determine, and the chunk
hash of this trie where it is not dirty. An empty one has never been marked dirty. -/
structure Canonical (keccak : Bytes → Hash) (n : Node) (m : Key → Option Bytes)
    (ts : Fin 16 → EntryTrie) : Prop where
  tree : Represents keccak Stale (Backing.canonical keccak) nkeypieces n (.branch ts)
  holds : Holds (.branch ts) (plainContents m)
  tight : ∀ j, (ts j).Tight 15
  plain : Plain n
  new : (∀ j, ts j = .nil) → SparseMerkleTree.rootHash n = [] ∧ CleanInner n

theorem canonical_new : Canonical keccak SparseMerkleTree.new (fun _ => none) fun _ => .nil where
  tree := new_represents (Or.inr ⟨rfl, rfl, rfl⟩) id
  holds := holds_empty
  tight := fun _ => Trie.tight_nil _
  plain := ⟨rfl, rfl, rfl, fun _ => trivial⟩
  new := fun _ => ⟨rfl, by
    intro d c h _
    obtain ⟨rfl, -⟩ := Node.mk.inj h
    rfl⟩

/-- `Insert`: a node above the new entry is dirty, and the trie is not empty. -/
theorem Canonical.insert {n n' : Node} {m : Key → Option Bytes} {ts : Fin 16 → EntryTrie}
    (h : Canonical keccak n m ts) {cs : Reader} {k : Key} {v : Bytes}
    (hx : SparseMerkleTree.insert cs k v 0 0 n = .ok n') :
    ∃ ts', Canonical keccak n' (Function.update m k (some v)) ts' := by
  obtain ⟨n₁, hins, hn₁⟩ := insert_represents (Backing.canonical_serves Stale cs) le_rfl v 0 0
    h.tree h.holds.wf (num_div_top k)
  obtain rfl : n₁ = n' := Except.ok.inj (hins.symm.trans hx)
  have hholds := h.holds.upsert k (updateEntry v 0 0)
  have hm : Function.update (plainContents m) k (some (updateEntry v 0 0 (plainContents m k)))
      = plainContents (Function.update m k (some v)) := apply_plainContents m (.insert k v)
  rw [hm] at hholds
  have hchild := Trie.tight_upsert (updateEntry v 0 0) (Trie.div_pow_eq (num_div_top k))
    (h.holds.wf (Trie.digit 15 (num k))) (h.tight _)
  refine ⟨_, hn₁, hholds, Trie.tight_update h.tight hchild, insert_plain h.plain hx, ?_⟩
  intro hnil
  have hself := hnil (Trie.digit 15 (num k))
  rw [Function.update_self] at hself
  exact (Trie.upsert_ne_nil _ _ _ _ hself).elim

/-- `Flush`: the roots of the tree are those of its trie. -/
theorem Canonical.flush {n n' : Node} {m : Key → Option Bytes} {ts : Fin 16 → EntryTrie}
    (h : Canonical keccak n m ts) {cs : Reader} {writes : List (Bytes × Bytes)}
    (hx : SparseMerkleTree.flush keccak cs n = .ok (n', writes)) :
    Canonical keccak n' m ts
      ∧ SparseMerkleTree.rootMerkle n' = trieRoot keccak nkeypieces (.branch ts)
      ∧ ((∃ j, ts j ≠ .nil) → SparseMerkleTree.rootHash n' = trieChunk keccak 15 ts) := by
  -- the writes are those of a plain node
  obtain ⟨n₁, hcomp, hflush⟩ : ∃ n₁, computeMerkleRoot keccak cs (nkeypieces + 1) n = .ok n₁
      ∧ (n', writes) = ((Smt.flush keccak n₁).1, (Smt.flush keccak n₁).2
        ++ [(SparseMerkleTree.rootMerkle (Smt.flush keccak n₁).1,
          SparseMerkleTree.rootHash (Smt.flush keccak n₁).1)]) := by
    unfold SparseMerkleTree.flush at hx
    rcases hc : computeMerkleRoot keccak cs (nkeypieces + 1) n with e | n₁
    · simp only [hc, bind, Except.bind] at hx
      cases hx
    · simp only [hc, bind, Except.bind] at hx
      exact ⟨n₁, rfl, (Except.ok.inj hx).symm⟩
  obtain ⟨rfl, rfl⟩ := Prod.mk.inj hflush
  obtain ⟨hplain, hhash, hclean⟩ := computeMerkleRoot_plain h.plain hcomp
  rcases treeFlush_represents (Backing.canonical_serves Stale cs) h.tree with
    ⟨-, n₂, writes, hf, hroot, -, hacc⟩ | ⟨-, e, hf⟩
  · rw [hx] at hf
    obtain ⟨rfl, hwrites⟩ := Prod.mk.inj (Except.ok.inj hf)
    obtain ⟨rfl, -⟩ := List.append_inj' hwrites rfl
    obtain ⟨hcl, hrep⟩ := hacc _ (Backing.canonical_accepts hplain)
    refine ⟨⟨?_, h.holds, h.tight, (flush_plain hplain).1, ?_⟩, hroot, ?_⟩
    · exact hrep.mono (fun _ => False.elim) (fun _ _ _ hc => hc) (fun _ _ _ hc => hc)
    · -- an empty tree is not dirty, and `flush` leaves it alone
      intro hnil
      obtain ⟨hnew, hcln⟩ := h.new hnil
      refine ⟨?_, hcl⟩
      obtain ⟨d, c, rfl, hterm⟩ : ∃ d c, n₁ = .mk d c ∧ d.terminal = false := by
        rcases n₁ with _ | ⟨d, c⟩
        · obtain ⟨d', c', hmk, -⟩ := hrep.inner
          cases hmk
        · refine ⟨d, c, rfl, ?_⟩
          obtain ⟨d', c', hmk, hterm⟩ := hrep.inner
          by_cases hd : d.dirty = true
          · rw [flush_dirty hd] at hmk
            obtain ⟨rfl, -⟩ := Node.mk.inj hmk
            exact hterm
          · rw [flush_clean (by simpa using hd)] at hmk
            obtain ⟨rfl, -⟩ := Node.mk.inj hmk
            exact hterm
      rw [flush_clean (hclean hcln d c rfl hterm), hhash, hnew]
    · intro ⟨j, hj⟩
      obtain ⟨d, c, hmk, -, hterm, -, ⟨-, -, -, hfalse⟩ | ⟨-, hs, -⟩⟩ := hrep
      · exact hfalse.elim
      · rw [hmk, SparseMerkleTree.rootHash]
        rcases hs (hcl d c hmk hterm) with hh | ⟨-, -, hnil⟩
        · exact hh
        · exact (hj (congrFun hnil j)).elim
  · rw [hx] at hf
    cases hf

/-- The tree after a history. -/
theorem canonical_execAll {history : List Write} {s s' : Store} {n n' : Node}
    {m : Key → Option Bytes} {ts : Fin 16 → EntryTrie} (h : Canonical keccak n m ts)
    (hx : execAll keccak (history.map Write.call) s n = .ok (n', s')) :
    ∃ ts', Canonical keccak n' (history.foldl Write.apply m) ts' := by
  induction history generalizing n m ts s with
  | nil =>
    obtain ⟨rfl, -⟩ := Prod.mk.inj (Except.ok.inj hx)
    exact ⟨ts, h⟩
  | cons w history ih =>
    rcases hc : w.call.exec keccak s n with e | ⟨n₁, s₁⟩
    · simp only [List.map_cons, execAll, hc, bind, Except.bind] at hx
      cases hx
    · simp only [List.map_cons, execAll, hc, bind, Except.bind] at hx
      obtain ⟨ts₁, h₁⟩ : ∃ ts₁, Canonical keccak n₁ (w.apply m) ts₁ := by
        rcases w with ⟨k, v⟩ | _
        · rcases hi : SparseMerkleTree.insert s.getChunk k v 0 0 n with e | n₂
          · simp only [Write.call, Call.exec, hi, bind, Except.bind] at hc
            cases hc
          · simp only [Write.call, Call.exec, hi, bind, Except.bind] at hc
            obtain ⟨rfl, -⟩ := Prod.mk.inj (Except.ok.inj hc)
            exact h.insert hi
        · rcases hf : SparseMerkleTree.flush keccak s.getChunk n with e | ⟨n₂, writes⟩
          · simp only [Write.call, Call.exec, hf, bind, Except.bind] at hc
            cases hc
          · simp only [Write.call, Call.exec, hf, bind, Except.bind] at hc
            obtain ⟨rfl, -⟩ := Prod.mk.inj (Except.ok.inj hc)
            exact ⟨ts, (h.flush hf).1⟩
      exact ih h₁ hx

/-- The trie of a canonical tree is determined by its map. -/
theorem Canonical.trie_eq {n n' : Node} {m : Key → Option Bytes} {ts ts' : Fin 16 → EntryTrie}
    (h : Canonical keccak n m ts) (h' : Canonical keccak n' m ts') : ts = ts' := by
  have hfind : ∀ a, Trie.find nkeypieces a (.branch ts) = Trie.find nkeypieces a (.branch ts') := by
    intro a
    by_cases ha : a < 2 ^ 64
    · rw [← num_keyOf ha, h.holds.find_eq, h'.holds.find_eq]
    · have hdiv : a / 16 ^ nkeypieces ≠ 0 := by
        rw [nkeypieces]
        omega
      rw [Trie.find_eq_none h.holds.wf hdiv, Trie.find_eq_none h'.holds.wf hdiv]
  ext j : 1
  exact Trie.ext_of_tight (h.holds.wf j) (h'.holds.wf j) (h.tight j) (h'.tight j)
    (Trie.find_child_eq h.holds.wf h'.holds.wf hfind j)

/-- The tree after a history that ends with a `Flush`. -/
theorem canonical_flushed {history : List Write} {s s' : Store} {n : Node}
    (hx : execAll keccak (history.map Write.call ++ [.flush]) s SparseMerkleTree.new
      = .ok (n, s')) :
    ∃ ts, Canonical keccak n (finalMap history) ts
      ∧ SparseMerkleTree.rootMerkle n = trieRoot keccak nkeypieces (.branch ts)
      ∧ ((∃ j, ts j ≠ .nil) → SparseMerkleTree.rootHash n = trieChunk keccak 15 ts) := by
  obtain ⟨n₁, s₁, writes, hcalls, hf, -⟩ := execAll_concat_flush hx
  obtain ⟨ts, h⟩ := canonical_execAll canonical_new hcalls
  exact ⟨ts, h.flush hf⟩

/-- Two histories of insertions without accounting and flushes, the last call of each a `Flush`,
that end in the same map give the same Merkle root and the same chunk hash. -/
theorem history_independent {history history' : List Write} {s s' s₁ s₁' : Store} {n n' : Node}
    (hx : execAll keccak (history.map Write.call ++ [.flush]) s SparseMerkleTree.new
      = .ok (n, s₁))
    (hx' : execAll keccak (history'.map Write.call ++ [.flush]) s' SparseMerkleTree.new
      = .ok (n', s₁'))
    (hmap : finalMap history = finalMap history') :
    SparseMerkleTree.merkleRoot n = SparseMerkleTree.merkleRoot n'
      ∧ SparseMerkleTree.chunkHash n = SparseMerkleTree.chunkHash n' := by
  obtain ⟨ts, h, hroot, hhash⟩ := canonical_flushed hx
  obtain ⟨ts', h', hroot', hhash'⟩ := canonical_flushed hx'
  rw [← hmap] at h'
  obtain rfl := h.trie_eq h'
  refine ⟨?_, ?_⟩
  · rw [SparseMerkleTree.merkleRoot, SparseMerkleTree.merkleRoot, hroot, hroot']
  · rw [SparseMerkleTree.chunkHash, SparseMerkleTree.chunkHash]
    by_cases hnil : ∀ j, ts j = .nil
    · rw [(h.new hnil).1, (h'.new hnil).1]
    · have hne := not_forall.mp hnil
      rw [hhash hne, hhash' hne]

/-- Two keys, the first one flushed alone. -/
def oneByOne : List Write :=
  [.insert (keyOf 1) (Bytes.zeros 32), .flush, .insert (keyOf (2 ^ 60)) (Bytes.zeros 32)]

/-- The same two keys in the other order. -/
def otherOrder : List Write :=
  [.insert (keyOf (2 ^ 60)) (Bytes.zeros 32), .insert (keyOf 1) (Bytes.zeros 32)]

theorem history_independent_otherOrder : ∃ n n' s₁ s₁',
    execAll (fun _ => zeroHash) (oneByOne.map Write.call ++ [.flush]) [] SparseMerkleTree.new
      = .ok (n, s₁)
    ∧ execAll (fun _ => zeroHash) (otherOrder.map Write.call ++ [.flush]) [] SparseMerkleTree.new
      = .ok (n', s₁')
    ∧ SparseMerkleTree.merkleRoot n = SparseMerkleTree.merkleRoot n'
    ∧ SparseMerkleTree.chunkHash n = SparseMerkleTree.chunkHash n' := by
  have hmap : finalMap oneByOne = finalMap otherOrder := Function.update_comm (by decide) _ _ _
  rcases hx : execAll (fun _ => zeroHash) (oneByOne.map Write.call ++ [.flush]) []
      SparseMerkleTree.new with e | ⟨n, s₁⟩
  · cases hx
  · rcases hx' : execAll (fun _ => zeroHash) (otherOrder.map Write.call ++ [.flush]) []
        SparseMerkleTree.new with e | ⟨n', s₁'⟩
    · cases hx'
    · exact ⟨n, n', s₁, s₁', hx, hx', history_independent hx hx' hmap⟩

end GoPlasma.Smt
