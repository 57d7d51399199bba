import GoPlasma.Smt.DurabilityTheorems

/-!
# Trees of several kinds in one store

The trees of a block are flushed into one chunk store, and not all of them hold values of 32 bytes.
`StandsFor` says which trie and which contents a tree stands for; `Shared` is what holds of a store
after any number of flushes: a tree that is opened at the Merkle root of one of them stands for its
contents, if these can be read (`Shared.opened`).

The assumption on `Keccak256` is `CollisionFree` again, on the strings of `hashedInto`.
-/

namespace GoPlasma.Smt

variable {keccak : Bytes → Hash}

/-! ## Several insertions -/

/-- The trie after insertions, in the order of the list. -/
def upsertAll (l : List (Key × Bytes)) (t : EntryTrie) : EntryTrie :=
  l.foldl (fun t x => t.upsert (num x.1) (updateEntry x.2 0 0) nkeypieces) t

/-- The contents after insertions. -/
def Contents.insertAll (l : List (Key × Bytes)) (m : Contents) : Contents :=
  l.foldl (fun m x => Function.update m x.1 (some (updateEntry x.2 0 0 (m x.1)))) m

@[simp] theorem upsertAll_nil (t : EntryTrie) : upsertAll [] t = t := rfl

@[simp] theorem Contents.insertAll_nil (m : Contents) : m.insertAll [] = m := rfl

theorem upsertAll_append (l l' : List (Key × Bytes)) (t : EntryTrie) :
    upsertAll (l ++ l') t = upsertAll l' (upsertAll l t) := List.foldl_append

theorem Contents.insertAll_append (l l' : List (Key × Bytes)) (m : Contents) :
    m.insertAll (l ++ l') = (m.insertAll l).insertAll l' := List.foldl_append

/-- The trie does not depend on the order in which different keys are inserted. -/
theorem upsertAll_perm {l l' : List (Key × Bytes)} (hp : l.Perm l') (hl : (l.map Prod.fst).Nodup)
    (t : EntryTrie) : upsertAll l t = upsertAll l' t := by
  apply hp.foldl_eq'
  intro x hx y hy t
  by_cases hxy : x = y
  · rw [hxy]
  · have hne : num y.1 ≠ num x.1 := by
      intro heq
      exact hxy (List.inj_on_of_nodup_map hl hx hy (num_inj heq).symm)
    exact Trie.upsert_comm hne _ _ ((num_div_top y.1).trans (num_div_top x.1).symm) t

theorem Holds.upsertAll {t : EntryTrie} {m : Contents} (h : Holds t m) (l : List (Key × Bytes)) :
    Holds (upsertAll l t) (m.insertAll l) := by
  induction l generalizing t m with
  | nil => exact h
  | cons x l ih => exact ih (h.upsert x.1 (updateEntry x.2 0 0))

/-- Neither do the contents. -/
theorem Contents.insertAll_perm {l l' : List (Key × Bytes)} (hp : l.Perm l')
    (hl : (l.map Prod.fst).Nodup) {t : EntryTrie} {m : Contents} (h : Holds t m) :
    m.insertAll l = m.insertAll l' := by
  funext k
  rw [← (h.upsertAll l).find_eq, ← (h.upsertAll l').find_eq, upsertAll_perm hp hl]

/-- A key that is not inserted keeps its entry. -/
theorem Contents.insertAll_of_notMem {l : List (Key × Bytes)} {k : Key}
    (hk : ∀ x ∈ l, x.1 ≠ k) (m : Contents) : m.insertAll l k = m k := by
  induction l generalizing m with
  | nil => rfl
  | cons x l ih =>
    have hfirst := ih (fun y hy => hk y (List.mem_cons_of_mem _ hy))
      (Function.update m x.1 (some (updateEntry x.2 0 0 (m x.1))))
    rw [Function.update_of_ne (Ne.symm (hk x List.mem_cons_self))] at hfirst
    exact hfirst

/-- The value of a key that is inserted once. -/
theorem Contents.insertAll_of_mem {l : List (Key × Bytes)} (hl : (l.map Prod.fst).Nodup) {k : Key}
    {v : Bytes} (hk : (k, v) ∈ l) (m : Contents) :
    (m.insertAll l k).map Entry.value = some v := by
  induction l generalizing m with
  | nil => cases hk
  | cons x l ih =>
    rw [List.map_cons, List.nodup_cons] at hl
    rcases List.mem_cons.mp hk with rfl | hk
    · have hrest : ∀ y ∈ l, y.1 ≠ k := by
        intro y hy heq
        exact hl.1 (List.mem_map.mpr ⟨y, hy, heq⟩)
      have hlast := insertAll_of_notMem hrest
        (Function.update m k (some (updateEntry v 0 0 (m k))))
      rw [Function.update_self] at hlast
      rw [show m.insertAll ((k, v) :: l) k = _ from hlast, Option.map_some,
        updateEntry_value]
    · exact ih hl.2 hk _

/-- What holds of all old values and of all inserted ones. -/
theorem Contents.insertAll_forall {P : Key → Bytes → Prop} {m : Contents} {l : List (Key × Bytes)}
    (hm : ∀ k e, m k = some e → P k e.value) (hl : ∀ x ∈ l, P x.1 x.2) :
    ∀ k e, m.insertAll l k = some e → P k e.value := by
  induction l generalizing m with
  | nil => exact hm
  | cons x l ih =>
    refine ih ?_ fun y hy => hl y (List.mem_cons_of_mem _ hy)
    intro k e hk
    simp only [Function.update_apply] at hk
    split_ifs at hk with hkx
    · obtain rfl := Option.some.inj hk
      rw [updateEntry_value, hkx]
      exact hl x List.mem_cons_self
    · exact hm k e hk

variable (keccak) in
/-- The strings that are hashed for insertions into an empty tree, without the pairs of default
hashes. -/
def pairStrings (l : List (Key × Bytes)) : List Bytes :=
  (BinTree.sparse (hashPair keccak) (keccak []).1 treeDepth
    (l.map fun x => (num x.1, x.2))).2.map fun x => x.1 ++ x.2

/-- The leaves of the tree are the values of the insertions. -/
theorem fewLeaves_insertAll {l : List (Key × Bytes)} (hl : (l.map Prod.fst).Nodup) (p : ℕ) :
    BinTree.FewLeaves (keccak []).1 ((Contents.empty.insertAll l).leaf keccak) treeDepth p
      (l.map fun x => (num x.1, x.2)) := by
  intro q _
  have hkey : ∀ k : Key, (num k % 2 ^ treeDepth == q % 2 ^ treeDepth) = true ↔ keyOf q = k := by
    intro k
    rw [beq_iff_eq, keyOf_eq_iff, Nat.mod_eq_of_lt (show num k < 2 ^ treeDepth from num_lt k)]
    exact eq_comm
  rw [Contents.leaf, List.find?_map]
  rcases hf : l.find? ((fun x => x.1 % 2 ^ treeDepth == q % 2 ^ treeDepth) ∘
      fun x : Key × Bytes => (num x.1, x.2)) with _ | ⟨k, v⟩
  · have hnot : ∀ x ∈ l, x.1 ≠ keyOf q := by
      intro x hx heq
      exact List.find?_eq_none.mp hf x hx ((hkey x.1).mpr heq.symm)
    rw [Contents.insertAll_of_notMem hnot, hf]
    rfl
  · have hfound := List.find?_some hf
    have hk : keyOf q = k := (hkey k).mp hfound
    have hv := Contents.insertAll_of_mem hl (List.mem_of_find?_eq_some hf) Contents.empty
    obtain ⟨e, he, hval⟩ := Option.map_eq_some_iff.mp hv
    rw [hk, he, hf]
    exact hval

theorem hashedPairs_insertAll {l : List (Key × Bytes)} (hl : (l.map Prod.fst).Nodup) {b : Bytes}
    (hb : b ∈ hashedPairs keccak (Contents.empty.insertAll l) treeDepth) :
    b ∈ pairStrings keccak l ∨ b ∈ hashedPairs keccak Contents.empty treeDepth := by
  obtain ⟨x, hx, rfl⟩ := hb
  rcases BinTree.pairs_sparse (hashPair keccak) (fewLeaves_insertAll hl) hx with hx | ⟨i, hi, rfl⟩
  · exact Or.inl (List.mem_map.mpr ⟨x, hx, rfl⟩)
  · refine Or.inr ⟨_, BinTree.mem_pairs (hashPair keccak) _ hi 0, ?_⟩
    rw [root_empty, root_empty, defaultHashes_eq_empty]

/-! ## What a tree stands for -/

variable (keccak) in
/-- The tree stands for the trie and for the contents. -/
structure StandsFor (s : Store) (n : Node) (t : EntryTrie) (m : Contents) : Prop where
  branch : ∃ ts, t = .branch ts
  represents : Represents keccak Stale (Backing.store keccak s) nkeypieces n t
  holds : Holds t m

section
variable {s s' : Store} {n : Node} {t : EntryTrie} {m : Contents}

theorem TreeOf.standsFor (h : TreeOf keccak s n m) : ∃ t, StandsFor keccak s n t m := by
  obtain ⟨ts, hrep, hholds⟩ := h
  exact ⟨.branch ts, ⟨ts, rfl⟩, hrep, hholds⟩

theorem StandsFor.treeOf (h : StandsFor keccak s n t m) : TreeOf keccak s n m := by
  obtain ⟨⟨ts, rfl⟩, hrep, hholds⟩ := h
  exact ⟨ts, hrep, hholds⟩

theorem StandsFor.keeps (hkeep : s.Keeps keccak s') (h : StandsFor keccak s n t m) :
    StandsFor keccak s' n t m :=
  ⟨h.branch, h.represents.keeps hkeep, h.holds⟩

theorem standsFor_new (s : Store) : StandsFor keccak s SparseMerkleTree.new (.branch fun _ => .nil)
    Contents.empty :=
  ⟨⟨_, rfl⟩, new_represents (Or.inr ⟨rfl, rfl, rfl⟩) (fun h => h), holds_empty⟩

theorem StandsFor.insert (h : StandsFor keccak s n t m) (k : Key) (v : Bytes) :
    ∃ n', SparseMerkleTree.insert s.getChunk k v 0 0 n = .ok n' ∧
      StandsFor keccak s n' (upsertAll [(k, v)] t) (m.insertAll [(k, v)]) := by
  obtain ⟨⟨ts, rfl⟩, hrep, hholds⟩ := h
  obtain ⟨n', hn', hrep'⟩ := insert_represents (Backing.store_serves s) le_rfl v 0 0 hrep hholds.wf
    (num_div_top k)
  exact ⟨n', hn', ⟨_, Trie.upsert_branch _ _ _ _⟩, hrep', hholds.upsert k _⟩

/-- `Get` finds the entry, and the tree stands for the same. -/
theorem StandsFor.get (h : StandsFor keccak s n t m) (k : Key) :
    ∃ res n', SparseMerkleTree.get keccak s.getChunk k n = .ok (res, n') ∧
      StandsFor keccak s n' t m ∧ res.answer = answerOf (m k) ∧ res.err = none := by
  obtain ⟨⟨ts, rfl⟩, hrep, hholds⟩ := h
  obtain ⟨res, n', hget, hrep', hans, herr, -⟩ := treeGet_represents (Backing.store_serves s)
    (fun _ h => h) hrep hholds k
  exact ⟨res, n', hget, ⟨⟨ts, rfl⟩, hrep', hholds⟩, hans, herr⟩

end

/-! ## Flushes -/

variable (keccak) in
/-- Every string that the store has under its own hash is one of these. -/
def Store.ChunksIn (H : Set Bytes) (s : Store) : Prop := ∀ b, ((keccak b).1, b) ∈ s → b ∈ H

/-- A write of a flush: a node chunk under its hash, or something under the Merkle root. -/
def FlushWrite (keccak : Bytes → Hash) (m : Contents) (w : Bytes × Bytes) : Prop :=
  (w.1 = (keccak w.2).1 ∧ w.2.length = chunkSize) ∨ w.1 = m.root keccak

section
variable {s : Store} {n : Node} {t : EntryTrie} {m : Contents}

/-- Writes of node chunks under their hashes, and under the hashes of pairs, keep the node
chunks. -/
theorem keeps_append {H : Set Bytes} (hcf : CollisionFree keccak H) {new : Store}
    (hnew : Sane keccak H new)
    (hs : ∀ chunk, s.lookup (keccak chunk).1 = some chunk → chunk ∈ H) :
    s.Keeps keccak (new ++ s) := by
  intro chunk hlen hfound
  rw [List.lookup_append]
  rcases hl : new.lookup (keccak chunk).1 with _ | v
  · exact hfound
  · -- whatever is written under this hash is the chunk itself
    rcases hnew _ (mem_of_lookup hl) with ⟨hkey, -, hv⟩ | ⟨b, hb, hb64, hkey⟩
    · rw [hcf.inj (hs chunk hfound) hv (Subtype.ext hkey)]
      rfl
    · exact (hcf.pair_ne_chunk hb hb64 (hs chunk hfound) hlen hkey.symm).elim

/-- Writes of a flush keep the node chunks. -/
theorem keeps_setChunks {H : Set Bytes} (hcf : CollisionFree keccak H)
    (hroot : hashedPairs keccak m treeDepth ⊆ H) {writes : List (Bytes × Bytes)}
    (hw : ∀ w ∈ writes, FlushWrite keccak m w) (hs : (s.setChunks writes).ChunksIn keccak H) :
    s.Keeps keccak (s.setChunks writes) := by
  apply keeps_append hcf
  · intro w hmem
    have hmem' := List.mem_reverse.mp hmem
    rcases hw w hmem' with ⟨hkey, hlen⟩ | hkey
    · refine Or.inl ⟨hkey, hlen, hs w.2 ?_⟩
      rw [← hkey]
      exact mem_setChunks.mpr (Or.inl hmem')
    · obtain ⟨b, hb, hb64, hbroot⟩ := root_mem_hashedPairs keccak m
      exact Or.inr ⟨b, hroot hb, hb64, hkey.trans hbroot⟩
  · intro chunk hfound
    exact hs chunk (mem_setChunks.mpr (Or.inr (mem_of_lookup hfound)))

/-- `Flush` of a tree: it returns exactly when no terminal is at the bottom. -/
theorem StandsFor.flush (h : StandsFor keccak s n t m) :
    (t.Shallow nkeypieces ∧ ∃ n' writes,
      SparseMerkleTree.flush keccak s.getChunk n = .ok (n', writes) ∧
      SparseMerkleTree.rootMerkle n' = m.root keccak ∧ ∀ w ∈ writes, FlushWrite keccak m w) ∨
    (¬ t.Shallow nkeypieces ∧ ∃ e, SparseMerkleTree.flush keccak s.getChunk n = .error e) := by
  obtain ⟨⟨ts, rfl⟩, hrep, hholds⟩ := h
  rcases treeFlush_represents (Backing.store_serves s) hrep with
    ⟨hsh, n', chunks, hf, hmerkle, ⟨n₁, hn₁⟩, -⟩ | ⟨hsh, e, hf⟩
  · rw [hholds.root_eq] at hmerkle hf
    refine Or.inl ⟨hsh, n', _, hf, hmerkle, ?_⟩
    intro w hw
    rcases List.mem_append.mp hw with hw | hw
    · exact Or.inl (flush_writes n₁ w (hn₁ ▸ hw))
    · rw [List.mem_singleton.mp hw]
      exact Or.inr rfl
  · exact Or.inr ⟨hsh, e, hf⟩

end

/-! ## The flushes of a store -/

variable (keccak) in
/-- The strings that have been hashed for a store into which these contents were flushed. -/
def hashedInto (s : Store) (ms : List Contents) : Set Bytes :=
  hashedInputs keccak ⟨s, [], []⟩ ⟨[], ms⟩

theorem hashedInto_mono {s s' : Store} {ms ms' : List Contents} (hs : ∀ x ∈ s, x ∈ s')
    (hm : ∀ m ∈ ms, m ∈ ms') : hashedInto keccak s ms ⊆ hashedInto keccak s' ms' :=
  hashedInputs_mono hs hm

/-- There is nothing but values, which are long enough for the leaves of a tree and are not the
one of an absent key. -/
def Contents.Bare (keccak : Bytes → Hash) (m : Contents) : Prop :=
  ∀ k e, m k = some e → 32 ≤ e.value.length ∧ e.value ≠ (keccak []).1 ∧ e.storageBytes = 0 ∧
    e.blockNum = 0

theorem Contents.bare_empty : Contents.empty.Bare keccak := by
  intro k e hk
  cases hk

/-- Insertions of values that a leaf may have. -/
theorem Contents.Bare.insertAll {m : Contents} (h : m.Bare keccak) {l : List (Key × Bytes)}
    (hl : ∀ x ∈ l, 32 ≤ x.2.length ∧ x.2 ≠ (keccak []).1) : (m.insertAll l).Bare keccak := by
  induction l generalizing m with
  | nil => exact h
  | cons x l ih =>
    refine ih ?_ fun y hy => hl y (List.mem_cons_of_mem _ hy)
    intro k e hk
    simp only [Function.update_apply] at hk
    split_ifs at hk with hkx
    · obtain rfl := Option.some.inj hk
      obtain ⟨hlen, hne⟩ := hl x List.mem_cons_self
      rw [updateEntry_value]
      refine ⟨hlen, hne, ?_⟩
      rcases hm : m x.1 with _ | e₀
      · exact ⟨rfl, rfl⟩
      · obtain ⟨-, -, hsb, hbn⟩ := h x.1 e₀ hm
        rw [updateEntry]
        split_ifs
        · exact ⟨hsb, hbn⟩
        · exact ⟨by rw [hsb]; rfl, rfl⟩
    · exact h k e hk

theorem Contents.Bare.length_leaf {m : Contents} (h : m.Bare keccak) (n : ℕ) :
    32 ≤ (m.leaf keccak n).length := by
  unfold Contents.leaf
  rcases hk : m (keyOf n) with _ | e
  · exact (keccak []).2.ge
  · exact (h _ e hk).1

/-- The entries are determined by the leaves. -/
theorem Contents.Bare.eq_of_leaf {m m' : Contents} (h : m.Bare keccak) (h' : m'.Bare keccak)
    (hleaf : ∀ k, m.leaf keccak (num k) = m'.leaf keccak (num k)) : m = m' := by
  funext k
  have hk := hleaf k
  rw [Contents.leaf, Contents.leaf, keyOf_num] at hk
  rcases hm : m k with _ | e
  · rcases hm' : m' k with _ | e'
    · rfl
    · rw [hm, hm'] at hk
      exact ((h' k e' hm').2.1 hk.symm).elim
  · rcases hm' : m' k with _ | e'
    · rw [hm, hm'] at hk
      exact ((h k e hm).2.1 hk).elim
    · rw [hm, hm'] at hk
      obtain ⟨-, -, hsb, hbn⟩ := h k e hm
      obtain ⟨-, -, hsb', hbn'⟩ := h' k e' hm'
      rcases e with ⟨v, sb, bn⟩
      rcases e' with ⟨v', sb', bn'⟩
      simp only at hk hsb hbn hsb' hbn'
      rw [hk, hsb, hbn, hsb', hbn']

/-- Two pairs of strings that are the same in a row, the first of 32 bytes each. -/
theorem pair_eq_of_append {x y : Bytes × Bytes} (h : x.1 ++ x.2 = y.1 ++ y.2)
    (hx : x.1.length = 32 ∧ x.2.length = 32) (hy : 32 ≤ y.1.length ∧ 32 ≤ y.2.length) : x = y := by
  have hlen := congrArg List.length h
  rw [List.length_append, List.length_append] at hlen
  obtain ⟨h₁, h₂⟩ := List.append_inj h (by omega)
  exact Prod.ext h₁ h₂

/-- Contents with the same Merkle root, one of which has values of 32 bytes. -/
theorem Contents.Bare.eq_of_root {m m' : Contents} {H : Set Bytes} (hcf : CollisionFree keccak H)
    (hH : hashedPairs keccak m treeDepth ⊆ H) (hH' : hashedPairs keccak m' treeDepth ⊆ H)
    (h : m.Bare keccak) (h' : m'.Bare keccak) (h32 : m.Values32)
    (hroot : m.root keccak = m'.root keccak) : m = m' := by
  have hroot' : BinTree.root (hashPair keccak) (m.leaf keccak) 64 0
      = BinTree.root (hashPair keccak) (m'.leaf keccak) (64 + 0) 0 := hroot
  have hlen : ∀ j p, 32 ≤ (BinTree.root (hashPair keccak) (m'.leaf keccak) j p).length := by
    intro j p
    rcases j with _ | j
    · exact h'.length_leaf p
    · exact (length_hashPair _ _).ge
  apply h.eq_of_leaf h'
  intro k
  have hk := BinTree.root_inj_of_pairs (hashPair keccak) (d := 64) ?_ le_rfl hroot' (num k)
    (num_lt k)
  · simpa using hk
  · rintro x hx y hy heq
    have hstr : x.1 ++ x.2 = y.1 ++ y.2 := hcf.inj (hH ⟨x, hx, rfl⟩) (hH' ⟨y, hy, rfl⟩)
      (Subtype.ext heq)
    obtain ⟨i, p, -, rfl⟩ := hx
    obtain ⟨j, q, -, rfl⟩ := hy
    exact pair_eq_of_append hstr ⟨length_root h32.length_leaf _ _, length_root h32.length_leaf _ _⟩
      ⟨hlen _ _, hlen _ _⟩

variable (keccak) in
/-- The chunk under the hash is the root node of a trie that holds the contents. -/
def StoredAs (s : Store) (h : Bytes) (m : Contents) : Prop :=
  ∃ ts, (Backing.store keccak s).clean nkeypieces h ts ∧ Holds (.branch ts) m ∧
    Trie.Shallow nkeypieces (.branch ts)

theorem StoredAs.keeps {s s' : Store} (hkeep : s.Keeps keccak s') {h : Bytes} {m : Contents}
    (hst : StoredAs keccak s h m) : StoredAs keccak s' h m := by
  obtain ⟨ts, hclean, hholds, hsh⟩ := hst
  exact ⟨ts, Backing.store_clean_mono hkeep hclean, hholds, hsh⟩

variable (keccak) in
/-- A store into which these contents were flushed. -/
structure Shared (s : Store) (ms : List Contents) : Prop where
  sane : Sane keccak (hashedInto keccak s ms) s
  bare : ∀ m ∈ ms, m.Bare keccak
  /-- Under the Merkle root of a flush is the chunk hash of a flush with that root. -/
  roots : ∀ m ∈ ms, ∃ m' ∈ ms, m'.root keccak = m.root keccak ∧
    ∃ h, s.lookup (m.root keccak) = some h ∧ StoredAs keccak s h m'

theorem shared_empty : Shared keccak [] [] where
  sane := fun _ hx => by cases hx
  bare := fun _ hm => by cases hm
  roots := fun _ hm => by cases hm

section
variable {s : Store} {ms : List Contents} {n n' : Node} {t : EntryTrie} {m : Contents}
  {writes : List (Bytes × Bytes)}

/-- One more flush. -/
theorem Shared.flush (h : Shared keccak s ms) (hn : StandsFor keccak s n t m)
    (hbare : m.Bare keccak)
    (hf : SparseMerkleTree.flush keccak s.getChunk n = .ok (n', writes))
    (hcf : CollisionFree keccak (hashedInto keccak (s.setChunks writes) (ms ++ [m]))) :
    Shared keccak (s.setChunks writes) (ms ++ [m]) ∧ s.Keeps keccak (s.setChunks writes) ∧
      SparseMerkleTree.rootMerkle n' = m.root keccak := by
  obtain ⟨⟨ts, rfl⟩, hrep, hholds⟩ := hn
  rcases treeFlush_represents (Backing.store_serves s) hrep with
    ⟨hsh, n₁, chunks, hf₁, hmerkle, ⟨n₂, hn₂⟩, hacc⟩ | ⟨-, e, hf₁⟩
  · rw [hf] at hf₁
    obtain ⟨rfl, rfl⟩ := Prod.mk.inj (Except.ok.inj hf₁)
    rw [hholds.root_eq] at hmerkle hcf ⊢
    set s' := s.setChunks (chunks ++ [(m.root keccak, SparseMerkleTree.rootHash n')]) with hs'
    have hsub : ∀ x ∈ s, x ∈ s' := fun x hx => mem_setChunks.mpr (Or.inr hx)
    have hsane : Sane keccak (hashedInputs keccak ⟨s', [], []⟩ ⟨[], ms ++ [m]⟩)
        (World.mk s' [] []).store :=
      sane_flush (w := ⟨s, [], []⟩) (a := ⟨[], ms⟩) h.sane hn₂ (by simp) rfl
        (fun m hm => List.mem_append_left _ hm)
    have hkeep : s.Keeps keccak s' := Sane.keeps (w := ⟨s', [], []⟩) hsane hcf hsub
    have hchunk := lookup_flush hcf hsane hn₂
      (fun x hx => mem_setChunks.mpr (Or.inl (List.mem_append_left _ hx)))
      (fun b hb => Or.inr (Or.inl hb))
    obtain ⟨hclean, hrep'⟩ := hacc (Backing.store keccak s')
      (Backing.store_accepts hkeep (fun x hx => (hchunk x hx).2.1) fun x hx => (hchunk x hx).2.2)
    have hstored : StoredAs keccak s' (SparseMerkleTree.rootHash n') m := by
      refine ⟨ts, ?_, hholds, hsh⟩
      obtain ⟨d, c, rfl, -, hterm, -, ⟨-, -, -, hfalse⟩ | ⟨-, hs, -⟩⟩ := hrep'
      · exact hfalse.elim
      · exact hs (hclean d c rfl hterm)
    refine ⟨⟨hsane, ?_, ?_⟩, hkeep, hmerkle⟩
    · intro mf hmf
      rcases List.mem_append.mp hmf with hmf | hmf
      · exact h.bare mf hmf
      · rw [List.mem_singleton.mp hmf]
        exact hbare
    · intro mf hmf
      obtain ⟨b, hb, hb64, hroot⟩ := root_mem_hashedPairs keccak mf
      have hlook := lookup_root_flush (s := s) (m := m) (h := SparseMerkleTree.rootHash n') hcf hn₂
        (fun x hx => (hchunk x hx).1) (Or.inr (Or.inr (Or.inr ⟨mf, hmf, hb⟩))) hb64 hroot
      rw [← hs'] at hlook
      by_cases heq : mf.root keccak = m.root keccak
      · rw [if_pos heq] at hlook
        exact ⟨m, by simp, heq.symm, _, hlook, hstored⟩
      · -- the entry of an earlier flush is still there
        rw [if_neg heq] at hlook
        have hold : mf ∈ ms := by
          rcases List.mem_append.mp hmf with hmf | hmf
          · exact hmf
          · exact (heq (by rw [List.mem_singleton.mp hmf])).elim
        obtain ⟨m', hm', hroot', h', hl', hst'⟩ := h.roots mf hold
        exact ⟨m', List.mem_append_left _ hm', hroot', h', hlook.trans hl', hst'.keeps hkeep⟩
  · rw [hf] at hf₁
    cases hf₁

/-- A tree that is opened at the Merkle root of a flush. -/
theorem Shared.opened (h : Shared keccak s ms) (hcf : CollisionFree keccak (hashedInto keccak s ms))
    (hm : m ∈ ms) (hread : m.Readable) (h32 : m.Values32) {root : Hash}
    (hroot : root.1 = m.root keccak) :
    ∃ t, StandsFor keccak s
      (SparseMerkleTree.initWithRoot s.getChunk root SparseMerkleTree.new).2 t m := by
  obtain ⟨m', hm', hsame, hash, hlook, ts, hclean, hholds, -⟩ := h.roots m hm
  have hpairs : ∀ m ∈ ms, hashedPairs keccak m treeDepth ⊆ hashedInto keccak s ms :=
    fun m hm b hb => Or.inr (Or.inr (Or.inr ⟨m, hm, hb⟩))
  obtain rfl := (h.bare m hm).eq_of_root hcf (hpairs m hm) (hpairs m' hm') (h.bare m' hm') h32
    hsame.symm
  rw [SparseMerkleTree.initWithRoot, hroot, Store.getChunk, hlook]
  simp only
  rcases hclean with hst | ⟨-, rfl, rfl⟩
  · have hne : ¬ hash.length = 0 := by
      obtain ⟨rows, hh, -⟩ := hst
      rw [hh, (keccak _).2]
      decide
    rw [if_neg hne]
    refine ⟨.branch ts, ⟨ts, rfl⟩, ?_, hholds⟩
    exact ⟨_, _, rfl, rfl, rfl, fun h => h.elim,
      Or.inl ⟨rfl, rfl, fun _ => rfl, hst, hholds.readable hread h32⟩⟩
  · -- a flush of nothing: the tree stays a new one
    rw [if_pos List.length_nil]
    exact ⟨_, ⟨_, rfl⟩, new_represents (Or.inr ⟨rfl, rfl, rfl⟩) (fun h => h), hholds⟩

/-- A tree that is opened at the zero root is a new one. -/
theorem Shared.opened_zero (h : Shared keccak s ms)
    (hcf : CollisionFree keccak (hashedInto keccak s ms)) :
    (SparseMerkleTree.initWithRoot s.getChunk zeroHash SparseMerkleTree.new).2
      = SparseMerkleTree.new := by
  have hzero : s.lookup zeroHash.1 = none := h.sane.lookup_zero hcf
  rw [SparseMerkleTree.initWithRoot, Store.getChunk, hzero]

end

end GoPlasma.Smt
