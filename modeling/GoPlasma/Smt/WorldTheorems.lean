import GoPlasma.Smt.StorageTheorems
import GoPlasma.Lib.ListRel

/-!
# Trees that share a store

The life of several trees on one chunk store refines the maps of `Ideal`: as long as every step
meets `StepOk`, each tree stands for its contents and each flush can be opened again
(`run_refines`).

The one assumption on `Keccak256` is `CollisionFree` on the strings that the run has hashed, and
that none of them hashes to zero. It is stated for the final state of a run; every earlier state
has hashed less.
-/

namespace GoPlasma.Smt

variable {keccak : Bytes → Hash}

/-! ## Hashed strings -/

variable (keccak) in
/-- The strings hashed for the inner nodes of the complete tree below height `d`. -/
def hashedPairs (m : Contents) (d : ℕ) : Set Bytes :=
  {b | ∃ x ∈ BinTree.pairs (hashPair keccak) (m.leaf keccak) d, b = x.1 ++ x.2}

variable (keccak) in
/-- The strings that a run has hashed: the empty string and the pairs of the default hashes,
the node chunks in the store, and the pairs of the trees that were flushed. -/
def hashedInputs (w : World) (a : Ideal) : Set Bytes :=
  {b | b = [] ∨ ((keccak b).1, b) ∈ w.store ∨ b ∈ hashedPairs keccak Contents.empty (treeDepth - 1)
    ∨ ∃ m ∈ a.flushed, b ∈ hashedPairs keccak m treeDepth}

/-- No two of the strings have the same hash, and none has the zero hash. -/
structure CollisionFree (keccak : Bytes → Hash) (inputs : Set Bytes) : Prop where
  inj : Set.InjOn keccak inputs
  ne_zero : ∀ b ∈ inputs, keccak b ≠ zeroHash

theorem CollisionFree.mono {H H' : Set Bytes} (h : CollisionFree keccak H') (hsub : H ⊆ H') :
    CollisionFree keccak H where
  inj := h.inj.mono hsub
  ne_zero := fun b hb => h.ne_zero b (hsub hb)

/-- The numbers are different modulo `m`; the residues that were seen are the bits of `seen`. -/
def distinctMod (m : ℕ) : List ℕ → ℕ → Bool
  | [], _ => true
  | x :: l, seen => !seen.testBit (x % m) && distinctMod m l (seen ||| 1 <<< (x % m))

theorem nodup_of_distinctMod {m : ℕ} {l : List ℕ} {seen : ℕ} (h : distinctMod m l seen = true) :
    l.Nodup ∧ ∀ x ∈ l, seen.testBit (x % m) = false := by
  induction l generalizing seen with
  | nil => simp
  | cons x l ih =>
    rw [distinctMod, Bool.and_eq_true, Bool.not_eq_true'] at h
    obtain ⟨hnodup, hseen⟩ := ih h.2
    simp only [Nat.testBit_or, Bool.or_eq_false_iff] at hseen
    refine ⟨List.nodup_cons.mpr ⟨?_, hnodup⟩, ?_⟩
    · intro hx
      have hbit := (hseen x hx).2
      simp [Nat.testBit_shiftLeft] at hbit
    · intro y hy
      rcases List.mem_cons.mp hy with rfl | hy
      · exact h.1
      · exact (hseen y hy).1

/-- Strings whose hashes are different numbers, none of them 0. -/
theorem CollisionFree.of_distinct {m : ℕ} {l : List Bytes}
    (h : distinctMod m (0 :: l.map fun x => Bytes.ofBE (keccak x).1) 0 = true) :
    CollisionFree keccak {x | x ∈ l} := by
  obtain ⟨hzero, hnodup⟩ := List.nodup_cons.mp (nodup_of_distinctMod h).1
  refine ⟨?_, ?_⟩
  · intro x hx y hy heq
    exact List.inj_on_of_nodup_map hnodup hx hy (by rw [heq])
  · intro x hx heq
    apply hzero
    refine List.mem_map.mpr ⟨x, hx, ?_⟩
    rw [heq]
    rfl

variable (keccak) in
/-- The string whose hash is the root of the complete tree. -/
theorem root_mem_hashedPairs (m : Contents) :
    ∃ b ∈ hashedPairs keccak m treeDepth, b.length = 64 ∧ m.root keccak = (keccak b).1 := by
  refine ⟨_, ⟨_, BinTree.mem_pairs (hashPair keccak) (m.leaf keccak) (h := 63) (by decide) 0, rfl⟩,
    ?_, rfl⟩
  rw [List.length_append]
  have hlen : ∀ p, (BinTree.root (hashPair keccak) (m.leaf keccak) 63 p).length = 32 :=
    fun p => length_hashPair _ _
  rw [hlen, hlen]

/-! ## The store -/

variable (keccak) in
/-- Every entry is a node chunk under its own hash, or is filed under a Merkle root. -/
def Sane (H : Set Bytes) (s : Store) : Prop :=
  ∀ x ∈ s, (x.1 = (keccak x.2).1 ∧ x.2.length = chunkSize ∧ x.2 ∈ H)
    ∨ ∃ b ∈ H, b.length = 64 ∧ x.1 = (keccak b).1

theorem Sane.mono {H H' : Set Bytes} {s : Store} (h : Sane keccak H s) (hsub : H ⊆ H') :
    Sane keccak H' s := by
  intro x hx
  rcases h x hx with ⟨h₁, h₂, h₃⟩ | ⟨b, hb, hlen, hkey⟩
  · exact Or.inl ⟨h₁, h₂, hsub h₃⟩
  · exact Or.inr ⟨b, hsub hb, hlen, hkey⟩

theorem mem_of_lookup {s : Store} {k v : Bytes} (h : s.lookup k = some v) : (k, v) ∈ s := by
  obtain ⟨l₁, l₂, rfl, -⟩ := List.lookup_eq_some_iff.mp h
  simp

/-- A node chunk that was written is found. -/
theorem Sane.lookup_chunk {H : Set Bytes} {s : Store} (hs : Sane keccak H s)
    (hcf : CollisionFree keccak H) {chunk : Bytes} (hlen : chunk.length = chunkSize)
    (hmem : ((keccak chunk).1, chunk) ∈ s) (hH : chunk ∈ H) :
    s.lookup (keccak chunk).1 = some chunk := by
  rcases hl : s.lookup (keccak chunk).1 with _ | v
  · have := List.lookup_eq_none_iff.mp hl _ hmem
    simp at this
  · -- whatever is filed under this hash is the chunk itself
    rcases hs _ (mem_of_lookup hl) with ⟨hkey, -, hv⟩ | ⟨b, hb, hb64, hkey⟩
    · rw [hcf.inj hH hv (Subtype.ext hkey)]
    · have hbc := hcf.inj hH hb (Subtype.ext hkey)
      rw [hbc, hb64] at hlen
      cases hlen

/-- Nothing is filed under the zero hash. -/
theorem Sane.lookup_zero {H : Set Bytes} {s : Store} (hs : Sane keccak H s)
    (hcf : CollisionFree keccak H) : s.lookup (Bytes.zeros 32) = none := by
  rcases hl : s.lookup (Bytes.zeros 32) with _ | v
  · rfl
  · rcases hs _ (mem_of_lookup hl) with ⟨hkey, -, hv⟩ | ⟨b, hb, -, hkey⟩
    · exact (hcf.ne_zero v hv (Subtype.ext hkey.symm)).elim
    · exact (hcf.ne_zero b hb (Subtype.ext hkey.symm)).elim

/-- A Merkle root is not the hash of a node chunk. -/
theorem CollisionFree.pair_ne_chunk {H : Set Bytes} (hcf : CollisionFree keccak H)
    {b chunk : Bytes} (hb : b ∈ H) (hb64 : b.length = 64) (hc : chunk ∈ H)
    (hlen : chunk.length = chunkSize) : (keccak b).1 ≠ (keccak chunk).1 := by
  intro h
  rw [hcf.inj hb hc (Subtype.ext h), hlen] at hb64
  cases hb64

/-! ## The invariant -/

variable (keccak) in
/-- What is known about a flush and the store: the tree in memory, its root, and its chunk. -/
structure FlushedTrie (s : Store) (f : Flushed) (m : Contents) (ts : Fin 16 → EntryTrie) :
    Prop where
  holds : Holds (.branch ts) m
  shallow : Trie.Shallow nkeypieces (.branch ts)
  tree : Represents keccak Fresh (Backing.store keccak s).allLoaded nkeypieces f.tree (.branch ts)
  merkle : SparseMerkleTree.rootMerkle f.tree = m.root keccak
  stored : (Backing.store keccak s).clean nkeypieces (SparseMerkleTree.rootHash f.tree) ts

variable (keccak) in
/-- The flush was one of these contents. -/
def FlushedOf (s : Store) (f : Flushed) (m : Contents) : Prop := ∃ ts, FlushedTrie keccak s f m ts

variable (keccak) in
/-- The tree stands for the contents. -/
def TreeOf (s : Store) (n : Node) (m : Contents) : Prop :=
  ∃ ts, Represents keccak Stale (Backing.store keccak s) nkeypieces n (.branch ts)
    ∧ Holds (.branch ts) m

/-- All values have 32 bytes. -/
def Contents.Values32 (m : Contents) : Prop := ∀ k e, m k = some e → e.value.length = 32

variable (keccak) in
/-- The world does what the maps say. -/
structure Refines (w : World) (a : Ideal) : Prop where
  trees : List.Forall₂ (TreeOf keccak w.store) w.trees a.trees
  flushed : List.Forall₂ (FlushedOf keccak w.store) w.flushed a.flushed
  sane : Sane keccak (hashedInputs keccak w a) w.store
  /-- Under the Merkle root of a flush is the chunk hash of the last flush with that root. -/
  roots : ∀ (j : ℕ) f, w.flushed[j]? = some f → ∃ (j' : ℕ) (f' : Flushed), j ≤ j'
    ∧ w.flushed[j']? = some f'
    ∧ SparseMerkleTree.rootMerkle f'.tree = SparseMerkleTree.rootMerkle f.tree
    ∧ w.store.lookup (SparseMerkleTree.rootMerkle f.tree)
        = some (SparseMerkleTree.rootHash f'.tree)
  treeValues : ∀ m ∈ a.trees, m.Values32
  flushedValues : ∀ m ∈ a.flushed, m.Values32

theorem refines_empty : Refines keccak World.empty ⟨[], []⟩ where
  trees := .nil
  flushed := .nil
  sane := fun _ hx => by cases hx
  roots := fun _ _ hf => by cases hf
  treeValues := fun _ hm => by cases hm
  flushedValues := fun _ hm => by cases hm

/-- More chunks in the store. -/
theorem Represents.keeps {R : ℕ → Prop} {s s' : Store} (hkeep : s.Keeps keccak s') {r : ℕ}
    {n : Node}
    {t : EntryTrie} (h : Represents keccak R (Backing.store keccak s) r n t) :
    Represents keccak R (Backing.store keccak s') r n t := by
  refine Represents.mono (fun _ => id) ?_ ?_ h
  · exact fun _ _ _ => Backing.store_clean_mono hkeep
  · exact fun _ _ _ hc => ⟨hc.1.mono hkeep, hc.2⟩

theorem TreeOf.keeps {s s' : Store} (hkeep : s.Keeps keccak s') {n : Node} {m : Contents}
    (h : TreeOf keccak s n m) : TreeOf keccak s' n m := by
  obtain ⟨ts, hn, hm⟩ := h
  exact ⟨ts, hn.keeps hkeep, hm⟩

theorem FlushedTrie.keeps {s s' : Store} (hkeep : s.Keeps keccak s') {f : Flushed} {m : Contents}
    {ts : Fin 16 → EntryTrie} (h : FlushedTrie keccak s f m ts) : FlushedTrie keccak s' f m ts where
  holds := h.holds
  shallow := h.shallow
  tree := by
    refine Represents.mono (fun _ => id) ?_ ?_ h.tree
    · exact fun _ _ _ => Backing.store_clean_mono hkeep
    · exact fun _ _ _ hc => hc
  merkle := h.merkle
  stored := Backing.store_clean_mono hkeep h.stored

theorem FlushedOf.keeps {s s' : Store} (hkeep : s.Keeps keccak s') {f : Flushed} {m : Contents}
    (h : FlushedOf keccak s f m) : FlushedOf keccak s' f m := by
  obtain ⟨ts, ht⟩ := h
  exact ⟨ts, ht.keeps hkeep⟩

/-- A later state has hashed more. -/
theorem hashedInputs_mono {w w' : World} {a a' : Ideal} (hs : ∀ x ∈ w.store, x ∈ w'.store)
    (hf : ∀ m ∈ a.flushed, m ∈ a'.flushed) :
    hashedInputs keccak w a ⊆ hashedInputs keccak w' a' := by
  intro b hb
  rcases hb with h | h | h | ⟨m, hm, h⟩
  · exact Or.inl h
  · exact Or.inr (Or.inl (hs _ h))
  · exact Or.inr (Or.inr (Or.inl h))
  · exact Or.inr (Or.inr (Or.inr ⟨m, hf m hm, h⟩))

/-- A sane store that has all entries of an older one keeps its node chunks. -/
theorem Sane.keeps {w : World} {a : Ideal} {s : Store}
    (hs : Sane keccak (hashedInputs keccak w a) w.store)
    (hcf : CollisionFree keccak (hashedInputs keccak w a)) (hsub : ∀ x ∈ s, x ∈ w.store) :
    s.Keeps keccak w.store := by
  intro chunk hlen hfound
  have hmem := hsub _ (mem_of_lookup hfound)
  exact hs.lookup_chunk hcf hlen hmem (Or.inr (Or.inl hmem))

/-! ## A flush -/

/-- The store after a flush. -/
theorem mem_setChunks {s : Store} {writes : List (Bytes × Bytes)} {x : Bytes × Bytes} :
    x ∈ s.setChunks writes ↔ x ∈ writes ∨ x ∈ s := by
  rw [Store.setChunks, List.mem_append, List.mem_reverse]

/-- The entries that a flush adds are node chunks and one Merkle root. -/
theorem sane_flush {w w' : World} {a a' : Ideal} {writes : List (Bytes × Bytes)} {n : Node}
    {m : Contents} {h : Bytes} (hsane : Sane keccak (hashedInputs keccak w a) w.store)
    (hwrites : writes = (flush keccak n).2) (hm : m ∈ a'.flushed)
    (hstore : w'.store = w.store.setChunks (writes ++ [(m.root keccak, h)]))
    (hf : ∀ m ∈ a.flushed, m ∈ a'.flushed) :
    Sane keccak (hashedInputs keccak w' a') w'.store := by
  have hsub : ∀ x ∈ w.store, x ∈ w'.store := by
    intro x hx
    rw [hstore, mem_setChunks]
    exact Or.inr hx
  intro x hx
  rw [hstore, mem_setChunks, List.mem_append, List.mem_singleton] at hx
  rcases hx with (hx | rfl) | hx
  · -- a node chunk
    obtain ⟨hkey, hlen⟩ := flush_writes n x (hwrites ▸ hx)
    refine Or.inl ⟨hkey, hlen, Or.inr (Or.inl ?_)⟩
    rw [hstore, mem_setChunks, List.mem_append, ← hkey]
    exact Or.inl (Or.inl hx)
  · obtain ⟨b, hb, hlen, hroot⟩ := root_mem_hashedPairs keccak m
    exact Or.inr ⟨b, Or.inr (Or.inr (Or.inr ⟨m, hm, hb⟩)), hlen, hroot⟩
  · exact (hsane.mono (hashedInputs_mono hsub hf)) x hx

/-- What is filed under a Merkle root after a flush: the chunk hash of that flush, if it has the
same root, else what was there before. -/
theorem lookup_root_flush {H : Set Bytes} {s : Store} {writes : List (Bytes × Bytes)} {n : Node}
    {m : Contents} {b root h : Bytes} (hcf : CollisionFree keccak H)
    (hwrites : writes = (flush keccak n).2) (hH : ∀ x ∈ writes, x.2 ∈ H) (hb : b ∈ H)
    (hb64 : b.length = 64) (hroot : root = (keccak b).1) :
    (s.setChunks (writes ++ [(m.root keccak, h)])).lookup root
      = if root = m.root keccak then some h else s.lookup root := by
  rw [Store.setChunks, List.reverse_append, List.reverse_singleton, List.append_assoc,
    List.singleton_append, List.lookup_cons]
  by_cases heq : root = m.root keccak
  · simp [heq]
  · have hnone : List.lookup root writes.reverse = none := by
      apply List.lookup_eq_none_iff.mpr
      intro x hx
      rw [List.mem_reverse] at hx
      obtain ⟨hkey, hlen⟩ := flush_writes n x (hwrites ▸ hx)
      have hne := hcf.pair_ne_chunk hb hb64 (hH x hx) hlen
      rw [← hroot, ← hkey] at hne
      simpa using hne
    rw [List.lookup_append, hnone, beq_eq_false_iff_ne.mpr heq, if_neg heq]
    rfl

/-- The node chunks of a flush can be read back. -/
theorem lookup_flush {H : Set Bytes} {s' : Store} {writes : List (Bytes × Bytes)} {n : Node}
    (hcf : CollisionFree keccak H) (hsane : Sane keccak H s')
    (hwrites : writes = (flush keccak n).2)
    (hmem : ∀ x ∈ writes, x ∈ s') (hH : ∀ b, ((keccak b).1, b) ∈ s' → b ∈ H) :
    ∀ x ∈ writes, x.2 ∈ H ∧ s'.lookup x.1 = some x.2 ∧ x.1 ≠ Bytes.zeros 32 := by
  intro x hx
  obtain ⟨hkey, hlen⟩ := flush_writes n x (hwrites ▸ hx)
  have hx' : ((keccak x.2).1, x.2) ∈ s' := by
    rw [← hkey]
    exact hmem x hx
  refine ⟨hH x.2 hx', ?_, ?_⟩
  · rw [hkey]
    exact hsane.lookup_chunk hcf hlen hx' (hH x.2 hx')
  · rw [hkey]
    exact fun hz => hcf.ne_zero _ (hH x.2 hx') (Subtype.ext hz)

/-- Under the Merkle roots of the flushes, when there is one more. -/
theorem Refines.roots_flush {w : World} {a : Ideal} (h : Refines keccak w a) {H : Set Bytes}
    {writes : List (Bytes × Bytes)} {n : Node} {m : Contents} {f₀ : Flushed} {s' : Store}
    (hcf : CollisionFree keccak H) (hwrites : writes = (Smt.flush keccak n).2)
    (hH : ∀ x ∈ writes, x.2 ∈ H)
    (hpairs : ∀ mf ∈ a.flushed ++ [m], ∀ b ∈ hashedPairs keccak mf treeDepth, b ∈ H)
    (hf₀ : SparseMerkleTree.rootMerkle f₀.tree = m.root keccak)
    (hflushed : List.Forall₂ (FlushedOf keccak s') (w.flushed ++ [f₀]) (a.flushed ++ [m]))
    {j : ℕ} {f : Flushed} (hj : (w.flushed ++ [f₀])[j]? = some f) :
    ∃ (j' : ℕ) (f' : Flushed), j ≤ j' ∧ (w.flushed ++ [f₀])[j']? = some f'
      ∧ SparseMerkleTree.rootMerkle f'.tree = SparseMerkleTree.rootMerkle f.tree
      ∧ (w.store.setChunks (writes ++ [(m.root keccak, SparseMerkleTree.rootHash f₀.tree)])).lookup
          (SparseMerkleTree.rootMerkle f.tree) = some (SparseMerkleTree.rootHash f'.tree) := by
  obtain ⟨mf, hmf, tf, hft⟩ := ListRel.getElem? hflushed hj
  obtain ⟨b, hb, hb64, hroot⟩ := root_mem_hashedPairs keccak mf
  have hlook := lookup_root_flush (s := w.store) (m := m)
    (h := SparseMerkleTree.rootHash f₀.tree) hcf hwrites hH
    (hpairs mf (List.mem_of_getElem? hmf) b hb) hb64 (hft.merkle.trans hroot)
  by_cases heq : SparseMerkleTree.rootMerkle f.tree = m.root keccak
  · -- the new flush has the same root
    rw [if_pos heq] at hlook
    have hlt := (List.getElem?_eq_some_iff.mp hj).1
    rw [List.length_append, List.length_singleton] at hlt
    exact ⟨w.flushed.length, _, by omega, List.getElem?_concat_length, hf₀.trans heq.symm, hlook⟩
  · -- the entry of an earlier flush is still there
    rw [if_neg heq] at hlook
    have hold : w.flushed[j]? = some f := by
      rcases ListRel.getElem?_concat hj with hold | ⟨-, rfl⟩
      · exact hold
      · exact (heq hf₀).elim
    obtain ⟨j', f', hjj, hf', hr', hl'⟩ := h.roots j f hold
    exact ⟨j', f', hjj, ListRel.getElem?_concat_of_some hf' _, hr', hlook.trans hl'⟩

/-- A flush that returns. -/
theorem Refines.flush {w : World} {a : Ideal} (h : Refines keccak w a) {i : ℕ} {n n' : Node}
    {m : Contents} {writes : List (Bytes × Bytes)} (hn : w.trees[i]? = some n)
    (hm : a.trees[i]? = some m)
    (hf : SparseMerkleTree.flush keccak w.store.getChunk n = .ok (n', writes)) {w' : World}
    {a' : Ideal}
    (hw' : w' = ⟨w.store.setChunks writes, w.trees.set i n',
      w.flushed ++ [⟨n', w.store.setChunks writes⟩]⟩)
    (ha' : a' = ⟨a.trees.set i m, a.flushed ++ [m]⟩)
    (hcf : CollisionFree keccak (hashedInputs keccak w' a')) : Refines keccak w' a' := by
  obtain ⟨m₀, hm₀, ts, hrep, hholds⟩ := ListRel.getElem? h.trees hn
  obtain rfl : m₀ = m := Option.some.inj (hm₀.symm.trans hm)
  rcases treeFlush_represents (Backing.store_serves w.store) hrep with
    ⟨hsh, n₁, chunks, hf₁, hmerkle, ⟨n₂, hn₂⟩, hacc⟩ | ⟨-, e, hf₁⟩
  · rw [hf] at hf₁
    obtain ⟨rfl, rfl⟩ := Prod.mk.inj (Except.ok.inj hf₁)
    rw [hholds.root_eq] at hmerkle hw'
    have hsub : ∀ x ∈ w.store, x ∈ w'.store := by
      intro x hx
      rw [hw']
      exact mem_setChunks.mpr (Or.inr hx)
    have hfl : ∀ m ∈ a.flushed, m ∈ a'.flushed := by
      intro m hm
      rw [ha']
      exact List.mem_append_left _ hm
    have hmem : m₀ ∈ a'.flushed := by
      rw [ha']
      simp
    -- the new store has more, and nothing of the old one is hidden
    have hsane : Sane keccak (hashedInputs keccak w' a') w'.store :=
      sane_flush h.sane hn₂ hmem (by rw [hw']) hfl
    have hkeep : w.store.Keeps keccak w'.store := hsane.keeps hcf hsub
    have hchunk := lookup_flush hcf hsane hn₂
      (fun x hx => by rw [hw']; exact mem_setChunks.mpr (Or.inl (List.mem_append_left _ hx)))
      (fun b hb => Or.inr (Or.inl hb))
    obtain ⟨hclean, hrep'⟩ := hacc (Backing.store keccak w'.store)
      (Backing.store_accepts hkeep (fun x hx => (hchunk x hx).2.1) fun x hx => (hchunk x hx).2.2)
    -- after the flush every inner node is clean, so that the chunk of the root is stored
    have hnew : FlushedOf keccak w'.store ⟨n', w'.store⟩ m₀ := by
      refine ⟨ts, hholds, hsh, hrep', hmerkle, ?_⟩
      obtain ⟨d, c, rfl, -, hterm, -, ⟨-, -, -, hfalse⟩ | ⟨-, hs, -⟩⟩ := hrep'
      · exact hfalse.elim
      · exact hs (hclean d c rfl hterm)
    have htree : TreeOf keccak w'.store n' m₀ := by
      refine ⟨ts, ?_, hholds⟩
      refine Represents.mono (fun _ => False.elim) ?_ ?_ hrep'
      · exact fun _ _ _ hc => hc
      · exact fun _ _ _ hc => hc.elim
    have htrees := ListRel.set (h.trees.imp fun _ _ => TreeOf.keeps hkeep) htree i
    have hflushed := ListRel.concat (h.flushed.imp fun _ _ => FlushedOf.keeps hkeep) hnew
    subst hw' ha'
    refine ⟨htrees, hflushed, hsane, ?_, ?_, ?_⟩
    · intro j f hj
      exact h.roots_flush hcf hn₂ (fun x hx => (hchunk x hx).1)
        (fun mf hmf b hb => Or.inr (Or.inr (Or.inr ⟨mf, hmf, hb⟩))) hmerkle hflushed hj
    · intro m hm
      rcases List.mem_or_eq_of_mem_set hm with hm | rfl
      · exact h.treeValues m hm
      · exact h.treeValues m (List.mem_of_getElem? hm₀)
    · intro m hm
      rcases List.mem_append.mp hm with hm | hm
      · exact h.flushedValues m hm
      · rw [List.mem_singleton] at hm
        rw [hm]
        exact h.treeValues m₀ (List.mem_of_getElem? hm₀)
  · rw [hf] at hf₁
    cases hf₁

/-! ## Opening a flush again -/

/-- The row format can hold these contents: no all-zero key and no all-zero value. -/
def Contents.Readable (m : Contents) : Prop :=
  ∀ k e, m k = some e → k ≠ zeroKey ∧ e.value ≠ Bytes.zeros 32

/-- A number that is found in the trie of some contents is one of their keys. -/
theorem Holds.key_of_find {t : EntryTrie} {m : Contents} (hm : Holds t m) {n : ℕ} {e : Entry}
    (h : t.find nkeypieces n = some e) : ∃ k, num k = n ∧ m k = some e := by
  have hdiv := Trie.div_of_find hm.wf (by rw [h]; exact Option.some_ne_none e)
  have hlt : n < 2 ^ 64 := (Nat.div_eq_zero_iff.mp hdiv).resolve_left (by decide)
  have hnum := num_keyOf hlt
  exact ⟨keyOf n, hnum, by rw [← hm.find_eq, hnum, h]⟩

/-- Readable contents have a readable trie. -/
theorem Holds.readable {ts : Fin 16 → EntryTrie} {m : Contents} (hm : Holds (.branch ts) m)
    (hread : m.Readable) (h32 : m.Values32) (j : Fin 16) : Readable (ts j) := by
  have hall : Readable (.branch ts) := by
    apply Trie.all_of_find hm.wf
    intro n e hfind
    obtain ⟨k, rfl, hk⟩ := hm.key_of_find hfind
    obtain ⟨hzero, hval⟩ := hread k e hk
    refine ⟨?_, h32 k e hk, hval⟩
    intro h
    exact hzero (num_inj (h.trans num_zeroKey.symm))
  exact hall j

variable (keccak) in
/-- A tree that has just been opened and stands for these contents: the cached roots that it
loads are right. -/
def OpenedAs (s : Store) (n : Node) (m : Contents) : Prop :=
  ∃ ts, Represents keccak FreshBelow (Backing.store keccak s) nkeypieces n (.branch ts)
    ∧ Holds (.branch ts) m ∧ Trie.Shallow nkeypieces (.branch ts)

/-- A flush of nothing, by a tree that never had a chunk, opened by its chunk hash: `Flush`
returned the zero hash. -/
def OpenedMissing (s : Store) (f : Flushed) (via : Handle) (m : Contents) : Prop :=
  via = .chunkHash ∧ SparseMerkleTree.rootHash f.tree = []
    ∧ via.open s f = setHash (Bytes.zeros 32) SparseMerkleTree.new ∧ m = Contents.empty

/-- Pointing a new tree to the chunk of a flush. -/
theorem FlushedTrie.setHash_represents {s : Store} {f : Flushed} {m : Contents}
    {ts : Fin 16 → EntryTrie} (hread : m.Readable) (h32 : m.Values32)
    (h : FlushedTrie keccak s f m ts) {hash : Bytes} (hst : Stored keccak s nkeypieces hash ts) :
    OpenedAs keccak s (setHash hash SparseMerkleTree.new) m := by
  refine ⟨ts, ?_, h.holds, h.shallow⟩
  refine ⟨_, _, rfl, rfl, rfl, ?_, Or.inl ⟨rfl, rfl, fun _ => rfl, hst, h.holds.readable hread h32⟩⟩
  intro hlt
  exact (lt_irrefl _ hlt).elim

/-- A flush of a tree that never had a chunk was of nothing. -/
theorem FlushedTrie.eq_empty {s : Store} {f : Flushed} {m : Contents}
    (h : FlushedTrie keccak s f m fun _ => .nil) : m = Contents.empty := by
  ext k : 1
  rw [← h.holds.find_eq k]
  exact Trie.find_nil _ _

/-- `Init` with the chunk hash of a flush. -/
theorem FlushedTrie.init {s : Store} {f : Flushed} {m : Contents} {ts : Fin 16 → EntryTrie}
    (hread : m.Readable) (h32 : m.Values32) (h : FlushedTrie keccak s f m ts) :
    OpenedAs keccak s (Handle.chunkHash.open s f) m ∨ OpenedMissing s f .chunkHash m := by
  have hopen : Handle.chunkHash.open s f
      = setHash (bytesToHash (SparseMerkleTree.rootHash f.tree)).1 SparseMerkleTree.new := rfl
  rcases h.stored with hst | ⟨-, hnil, rfl⟩
  · have h32' : (SparseMerkleTree.rootHash f.tree).length = 32 := by
      obtain ⟨rows, hh, -⟩ := hst
      rw [hh]
      exact (keccak _).2
    rw [hopen, bytesToHash_of_length h32']
    exact Or.inl (h.setHash_represents hread h32 hst)
  · refine Or.inr ⟨rfl, hnil, ?_, h.eq_empty⟩
    rw [hopen, hnil]
    rfl

variable (keccak) in
/-- The same complete tree. A key that is absent and one with the value `Keccak256()` have the
same leaf. -/
def Contents.SameLeaves (m m' : Contents) : Prop :=
  ∀ k, m.leaf keccak (num k) = m'.leaf keccak (num k)

theorem Contents.Values32.length_leaf {m : Contents} (h : m.Values32) (n : ℕ) :
    (m.leaf keccak n).length = 32 := by
  unfold Contents.leaf
  rcases hk : m (keyOf n) with _ | e
  · exact (keccak []).2
  · exact h _ e hk

theorem length_root {leaf : ℕ → Bytes} (h32 : ∀ n, (leaf n).length = 32) (h p : ℕ) :
    (BinTree.root (hashPair keccak) leaf h p).length = 32 := by
  rcases h with _ | h
  · exact h32 p
  · exact length_hashPair _ _

/-- Combining pairs has no collision where hashing their strings has none. -/
theorem injOn_hashPair {S : Set (Bytes × Bytes)} {H : Set Bytes} (hinj : Set.InjOn keccak H)
    (hS : ∀ x ∈ S, x.1 ++ x.2 ∈ H ∧ x.1.length = 32) :
    Set.InjOn (Function.uncurry (hashPair keccak)) S := by
  intro x hx y hy heq
  obtain ⟨hxH, hx32⟩ := hS x hx
  obtain ⟨hyH, hy32⟩ := hS y hy
  have hstr : x.1 ++ x.2 = y.1 ++ y.2 := hinj hxH hyH (Subtype.ext heq)
  obtain ⟨h1, h2⟩ := List.append_inj hstr (hx32.trans hy32.symm)
  exact Prod.ext h1 h2

theorem injOn_pairs {leaf leaf' : ℕ → Bytes} {d : ℕ} {H : Set Bytes}
    (hcf : CollisionFree keccak H) (h32 : ∀ n, (leaf n).length = 32)
    (h32' : ∀ n, (leaf' n).length = 32)
    (hH : ∀ x ∈ BinTree.pairs (hashPair keccak) leaf d, x.1 ++ x.2 ∈ H)
    (hH' : ∀ x ∈ BinTree.pairs (hashPair keccak) leaf' d, x.1 ++ x.2 ∈ H) :
    Set.InjOn (Function.uncurry (hashPair keccak))
      (BinTree.pairs (hashPair keccak) leaf d ∪ BinTree.pairs (hashPair keccak) leaf' d) := by
  refine injOn_hashPair hcf.inj ?_
  rintro x (hx | hx)
  · refine ⟨hH x hx, ?_⟩
    obtain ⟨h, p, -, rfl⟩ := hx
    exact length_root h32 _ _
  · refine ⟨hH' x hx, ?_⟩
    obtain ⟨h, p, -, rfl⟩ := hx
    exact length_root h32' _ _

/-- Flushes with the same Merkle root have the same leaves. -/
theorem sameLeaves_of_root {w : World} {a : Ideal} {m m' : Contents}
    (hcf : CollisionFree keccak (hashedInputs keccak w a)) (hm : m ∈ a.flushed)
    (hm' : m' ∈ a.flushed) (h32 : m.Values32) (h32' : m'.Values32)
    (hroot : m.root keccak = m'.root keccak) : m.SameLeaves keccak m' := by
  have hinj : Set.InjOn (Function.uncurry (hashPair keccak))
      (BinTree.pairs (hashPair keccak) (m.leaf keccak) 64
        ∪ BinTree.pairs (hashPair keccak) (m'.leaf keccak) 64) := by
    apply injOn_pairs hcf h32.length_leaf h32'.length_leaf
    · exact fun x hx => Or.inr (Or.inr (Or.inr ⟨m, hm, x, hx, rfl⟩))
    · exact fun x hx => Or.inr (Or.inr (Or.inr ⟨m', hm', x, hx, rfl⟩))
  have hroot' : BinTree.root (hashPair keccak) (m.leaf keccak) 64 0
      = BinTree.root (hashPair keccak) (m'.leaf keccak) (64 + 0) 0 := hroot
  intro k
  have hk := BinTree.root_inj (hashPair keccak) hinj le_rfl hroot' (num k) (num_lt k)
  simpa using hk

/-- What a flush may turn out to be when it is opened again: itself, or, by Merkle root, a later
flush with the same leaves. -/
def Ideal.Candidate (keccak : Bytes → Hash) (a : Ideal) (j : ℕ) (via : Handle)
    (m' : Contents) : Prop :=
  ∃ m, a.flushed[j]? = some m ∧ (m' = m ∨ (via = .merkleRoot ∧
    ∃ j', j ≤ j' ∧ a.flushed[j']? = some m' ∧ m'.SameLeaves keccak m))

/-- Opening a flush gives one of the candidates, if all of them can be read. -/
theorem Refines.open {w : World} {a : Ideal} (h : Refines keccak w a)
    (hcf : CollisionFree keccak (hashedInputs keccak w a)) {j : ℕ} {f : Flushed}
    (hf : w.flushed[j]? = some f) (via : Handle)
    (hread : ∀ m', a.Candidate keccak j via m' → m'.Readable) :
    ∃ m', a.Candidate keccak j via m' ∧ (OpenedAs keccak w.store (via.open w.store f) m'
      ∨ OpenedMissing w.store f via m') := by
  obtain ⟨m, hm, ts, ht⟩ := ListRel.getElem? h.flushed hf
  have h32 : m.Values32 := h.flushedValues m (List.mem_of_getElem? hm)
  rcases via with _ | _
  · have hc : a.Candidate keccak j .chunkHash m := ⟨m, hm, Or.inl rfl⟩
    exact ⟨m, hc, ht.init (hread m hc) h32⟩
  · obtain ⟨j', f', hjj, hf', hroot, hlook⟩ := h.roots j f hf
    obtain ⟨m', hm', ts', ht'⟩ := ListRel.getElem? h.flushed hf'
    have h32' : m'.Values32 := h.flushedValues m' (List.mem_of_getElem? hm')
    rw [ht.merkle, ht'.merkle] at hroot
    have hsame := sameLeaves_of_root hcf (List.mem_of_getElem? hm') (List.mem_of_getElem? hm)
      h32' h32 hroot
    have hc : a.Candidate keccak j .merkleRoot m' := ⟨m, hm, Or.inr ⟨rfl, j', hjj, hm', hsame⟩⟩
    refine ⟨m', hc, Or.inl ?_⟩
    have hroot32 : (SparseMerkleTree.rootMerkle f.tree).length = 32 := by
      rw [ht.merkle]
      exact length_hashPair _ _
    rw [Handle.open, SparseMerkleTree.initWithRoot, SparseMerkleTree.merkleRoot,
      bytesToHash_of_length hroot32, Store.getChunk, hlook]
    simp only
    rcases ht'.stored with hst | ⟨-, hnil, rfl⟩
    · have hne : ¬ (SparseMerkleTree.rootHash f'.tree).length = 0 := by
        obtain ⟨rows, hh, -⟩ := hst
        rw [hh, (keccak _).2]
        decide
      rw [if_neg hne]
      exact ht'.setHash_represents (hread m' hc) h32' hst
    · -- a flush of nothing: the tree stays a new one
      rw [hnil, if_pos List.length_nil]
      refine ⟨fun _ => .nil, ?_, ht'.holds, ht'.shallow⟩
      exact new_represents (Or.inr ⟨rfl, rfl, rfl⟩) (lt_irrefl _)

end GoPlasma.Smt
