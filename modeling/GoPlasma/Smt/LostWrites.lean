import GoPlasma.Smt.ReadFailures

/-!
# Insertions and flushes while reads fail

`kept` is what a flush is going to store under a key, for a node in memory. `insert_lossy` says what
an insertion does to it, for its own key and for all others: into a node that it cannot read,
`insert` puts its terminal as if there was nothing else (`Store.torn`). `computeMerkleRoot` reads
once more, and where it can now read such a node, the rows of the chunk come back
(`computeMerkleRoot_kept`). `flush` stores what is then in memory (`flush_kept`).
-/

namespace GoPlasma.Smt

variable {keccak : Bytes → Hash} {s : Store} {pcs : Reader}

/-! ## Nodes in memory -/

/-- A terminal at a height of `b` at least, whose key begins with the digits of `p` and whose row
can be read back. -/
structure Terminal (b r p : ℕ) (d : NodeData) : Prop where
  height : b ≤ r ∧ num d.key / 16 ^ r = p
  loaded : d.unloaded = false
  readable : ReadableEntry (num d.key) ⟨d.chunkHash, d.storageBytes, d.blockNum⟩

variable (keccak) in
/-- A node in memory, with `r` key pieces below it and keys that begin with the digits of `p`, over
the chunks of the store: what is unread or unchanged has its chunk there. An unread node may have
children all the same, those that an insertion has given it. -/
def Backed (s : Store) (b : ℕ) : ℕ → ℕ → Node → Prop
  | _, _, .nil => True
  | 0, p, .mk d _ => d.level = levelOf 0 ∧ d.terminal = true ∧ Terminal b 0 p d
  | r + 1, p, .mk d c =>
    d.level = levelOf (r + 1) ∧ (d.terminal = true → Terminal b (r + 1) p d) ∧
      (d.terminal = false →
        (d.unloaded = true ∨ d.dirty = false → ChunkTree keccak s b (r + 1) p d.chunkHash) ∧
        ∀ j : Fin 16, Backed s b r (16 * p + j) (c j))

/-- What is going to be stored under a key by a flush that reads with `pcs`. -/
def kept (pcs : Reader) (s : Store) : ℕ → Key → Node → Option Entry
  | _, _, .nil => none
  | 0, k, .mk d _ => if d.terminal then entryOf k d else none
  | r + 1, k, .mk d c =>
    if d.terminal then entryOf k d
    else if d.dirty then
      (load pcs d c).toOption.bind fun x =>
        kept pcs s r k (x.2 (keypiece k (nkeypieces - (r + 1))))
    else s.find (r + 1) d.chunkHash k

/-- The reader that reads nothing. -/
def noReads : Reader := fun _ => .err

theorem load_noReads (d : NodeData) (c : Fin 16 → Node) : load noReads d c = .ok (d, c) :=
  load_unread rfl c

section
variable {b r p : ℕ} {d : NodeData} {c : Fin 16 → Node} {k : Key}

@[simp] theorem backed_nil (r p : ℕ) : Backed keccak s b r p .nil := by
  cases r <;> trivial

@[simp] theorem kept_nil (r : ℕ) (k : Key) : kept pcs s r k .nil = none := by
  cases r <;> rfl

theorem backed_terminal (hterm : d.terminal = true) :
    Backed keccak s b r p (.mk d c) ↔ d.level = levelOf r ∧ Terminal b r p d := by
  rcases r with _ | r
  · simp only [Backed, hterm, true_and]
  · simp only [Backed, hterm, true_implies, Bool.true_eq_false, false_implies, and_true]

theorem backed_inner (hterm : d.terminal = false) :
    Backed keccak s b (r + 1) p (.mk d c) ↔ d.level = levelOf (r + 1) ∧
      (d.unloaded = true ∨ d.dirty = false → ChunkTree keccak s b (r + 1) p d.chunkHash) ∧
      ∀ j : Fin 16, Backed keccak s b r (16 * p + j) (c j) := by
  simp only [Backed, hterm, true_implies, Bool.false_eq_true, false_implies, true_and]

theorem kept_terminal (hterm : d.terminal = true) : kept pcs s r k (.mk d c) = entryOf k d := by
  rcases r with _ | r
  · rw [kept, if_pos hterm]
  · rw [kept, if_pos hterm]

theorem kept_clean (hterm : d.terminal = false) (hd : d.dirty = false) :
    kept pcs s (r + 1) k (.mk d c) = s.find (r + 1) d.chunkHash k := by
  rw [kept, if_neg (by simp [hterm]), if_neg (by simp [hd])]

theorem kept_dirty (hterm : d.terminal = false) (hd : d.dirty = true) {d' : NodeData}
    {c' : Fin 16 → Node} (hload : load pcs d c = .ok (d', c')) :
    kept pcs s (r + 1) k (.mk d c) = kept pcs s r k (c' (keypiece k (nkeypieces - (r + 1)))) := by
  rw [kept, if_neg (by simp [hterm]), if_pos hd, hload]
  rfl

/-- The node of a row is over the chunks of the store. -/
theorem backed_row {chunk : Bytes} (hlen : chunk.length = chunkSize)
    (hrows : RowTrees keccak s b r p chunk) {old : Node} (j : Fin 16)
    (hold : Backed keccak s b r (16 * p + j) old) :
    Backed keccak s b r (16 * p + j) (rowNode old (rowAt r chunk j)) := by
  rcases hrow : rowAt r chunk j with _ | d
  · exact hold
  · have hd := rowAt_data hlen hrow
    obtain ⟨hleaf, hinner⟩ := hrows j d hrow
    rw [rowNode, Option.elim_some]
    rcases hterm : d.terminal with _ | _
    · rcases r with _ | r
      · exact (hinner hterm).elim
      · exact (backed_inner hterm).mpr ⟨hd.level, fun _ => hinner hterm, fun _ => backed_nil r _⟩
    · refine (backed_terminal hterm).mpr
        ⟨hd.level, hleaf hterm, ?_, hd.key hterm, hd.length, hd.hash⟩
      rw [hd.unloaded, hterm]
      rfl

variable (pcs) in
/-- What is kept of the node of a row: what is stored below it. -/
theorem kept_row {chunk h : Bytes} (hs : s.lookup h = some chunk) (hlen : chunk.length = chunkSize)
    (hrows : RowTrees keccak s b r p chunk) (k : Key) :
    kept pcs s r k (rowNode .nil (rowAt r chunk (keypiece k (nkeypieces - (r + 1)))))
      = s.find (r + 1) h k := by
  rcases hrow : rowAt r chunk (keypiece k (nkeypieces - (r + 1))) with _ | d
  · rw [find_none ((rowOf_eq hs).trans hrow)]
    exact kept_nil r k
  · have hd := rowAt_data hlen hrow
    rw [rowNode, Option.elim_some]
    rcases hterm : d.terminal with _ | _
    · rw [find_inner ((rowOf_eq hs).trans hrow) hterm]
      rcases r with _ | r
      · exact ((hrows _ d hrow).2 hterm).elim
      · exact kept_clean hterm hd.dirty
    · rw [find_terminal ((rowOf_eq hs).trans hrow) hterm]
      exact kept_terminal hterm

/-- Loading an inner node: the new children are over the chunks of the store as well. -/
theorem load_backed (hl : Lossy s pcs) (hterm : d.terminal = false)
    (hn : Backed keccak s b (r + 1) p (.mk d c)) :
    ∃ u c', load pcs d c = .ok ({ d with unloaded := u }, c') ∧ (u = true → d.unloaded = true) ∧
      ∀ j : Fin 16, Backed keccak s b r (16 * p + j) (c' j) := by
  obtain ⟨hlev, htree, hc⟩ := (backed_inner hterm).mp hn
  rcases hu : d.unloaded with _ | _
  · exact ⟨d.unloaded, c, load_of_loaded hu c, fun h => hu ▸ h, hc⟩
  · rcases hread : reads pcs d.chunkHash with _ | _
    · exact ⟨d.unloaded, c, load_unread hread c, fun h => hu ▸ h, hc⟩
    · obtain ⟨chunk, hs, -, hlen, hrows⟩ := htree (Or.inl hu)
      refine ⟨false, _, load_read hl hlev hu hs hlen hread c, ?_, fun j => ?_⟩
      · intro h
        cases h
      · exact backed_row hlen hrows j (hc j)

end

/-! ## Insertions -/

/-- Whether an insertion of `k` that reads with `pcs`, and a flush that reads with `pcs'`, lose
`k'`: the first chunk on the way of `k` that the insertion cannot read is on the way of `k'`, and
the flush cannot read it either. -/
def Store.torn (s : Store) (pcs pcs' : Reader) : ℕ → Bytes → Key → Key → Bool
  | 0, _, _, _ => false
  | r + 1, h, k, k' =>
    if reads pcs h then
      decide (keypiece k (nkeypieces - (r + 1)) = keypiece k' (nkeypieces - (r + 1))) &&
        (s.rowOf r h k).elim false fun d => !d.terminal && s.torn pcs pcs' r d.chunkHash k k'
    else !reads pcs' h

/-- Every inner node is loaded and dirty. -/
def Backing.changed : Backing := ⟨fun _ _ _ => False, fun _ _ _ => False⟩

theorem Backing.changed_serves (R : ℕ → Prop) (pcs : Reader) :
    Backing.changed.Serves keccak R pcs where
  clean := fun _ _ _ => False.elim
  rows := fun _ _ _ => False.elim

variable (s pcs) in
/-- A node that is all in memory and dirty: its trie is what is kept. -/
theorem Represents.kept {r p : ℕ} (hr : r ≤ nkeypieces) {n : Node} {t : EntryTrie}
    (hn : Represents keccak Stale Backing.changed r n t) (hwf : t.WF r p) (ht : Readable t) :
    Backed keccak s 0 r p n ∧ ∀ k, kept pcs s r k n = Trie.find r (num k) t := by
  have hleaf : ∀ {r p k : ℕ} {e : Entry} {n : Node},
      Represents keccak Stale Backing.changed r n (.leaf k e) → k / 16 ^ r = p →
      ReadableEntry k e → Backed keccak s 0 r p n
        ∧ ∀ q, Smt.kept pcs s r q n = if num q = k then some e else none := by
    intro r p k e n hn hp he
    obtain ⟨d, rfl, hd, -⟩ := represents_leaf.mp hn
    have hentry : (⟨d.chunkHash, d.storageBytes, d.blockNum⟩ : Entry) = e := by
      rw [hd.value, hd.storageBytes, hd.blockNum]
    refine ⟨(backed_terminal hd.terminal).mpr
      ⟨hd.level, ⟨Nat.zero_le r, hd.key.symm ▸ hp⟩, hd.loaded, ?_⟩, ?_⟩
    · rw [hentry, hd.key]
      exact he
    · intro q
      rw [kept_terminal hd.terminal, entryOf, hentry]
      simp only [eq_comm.trans (hd.key_eq_iff q)]
  -- the induction follows the trie; no case is unread, as the node is all in memory
  induction r generalizing p n t with
  | zero =>
    rcases t with _ | ⟨k, e⟩ | ts
    · rw [represents_nil.mp hn]
      exact ⟨backed_nil 0 p, fun _ => rfl⟩
    · exact hleaf hn (Trie.wf_leaf.mp hwf) ht
    · exact hn.elim
  | succ r ih =>
    rcases t with _ | ⟨k, e⟩ | ts
    · rw [represents_nil.mp hn]
      exact ⟨backed_nil _ p, fun _ => rfl⟩
    · exact hleaf hn (Trie.wf_leaf.mp hwf) ht
    · obtain ⟨d, c, rfl, hlev, hterm, -, ⟨-, -, -, hb⟩ | ⟨hu, hclean, hc⟩⟩ := hn
      · exact hb.elim
      · have hd : d.dirty = true := by
          rcases hd : d.dirty with _ | _
          · exact (hclean hd).elim
          · rfl
        refine ⟨(backed_inner hterm).mpr ⟨hlev, ?_, fun j => ?_⟩, ?_⟩
        · rintro (h | h)
          · rw [hu] at h
            cases h
          · rw [hd] at h
            cases h
        · exact (ih (by omega) (hc j) (hwf j) (ht j)).1
        · intro q
          rw [kept_dirty hterm hd (load_of_loaded hu c), keypiece_eq_digit q (by omega),
            Trie.find_branch]
          exact (ih (by omega) (hc _) (hwf _) (ht _)).2 q

section
variable {pcs' : Reader} {b r p : ℕ} {k : Key} {v : Bytes} {sb bn : UInt64}

variable (s pcs') in
/-- An insertion into a slot that is empty or has a terminal reads nothing. -/
theorem insertChild_kept (hr : r < nkeypieces) (hk : num k / 16 ^ r = p)
    (hv : ReadableEntry (num k) ⟨v, sb, bn⟩) {n : Node} {t : EntryTrie}
    (hn : Represents keccak Stale Backing.changed r n t) (hwf : t.WF r p)
    (ht : ∀ q e, t.find r q = some e → ReadableEntry q e) :
    ∃ n', insertChild (insert pcs r) (levelOf (r + 1)) k v sb bn n = .ok n'
      ∧ Backed keccak s 0 r p n'
      ∧ ∀ q, kept pcs' s r q n'
        = if q = k then some (updateEntry v sb bn (t.find r (num k))) else t.find r (num q) := by
  obtain ⟨n', hn', hrep⟩ := insertChild_represents (insert pcs r)
    (fun v sb bn hn hwf hk =>
      insert_represents (Backing.changed_serves Stale pcs) hr.le v sb bn hn hwf hk)
    hn hwf hk v sb bn
  have hread : Readable (Trie.upsert (num k) (updateEntry v sb bn) r t) := by
    apply Trie.all_of_find (Trie.wf_upsert _ hk hwf)
    intro q e hq
    rw [Trie.find_upsert _ hk hwf] at hq
    split at hq
    · rename_i hqk
      have hval := updateEntry_value v sb bn (t.find r (num k))
      rw [Option.some.inj hq] at hval
      obtain ⟨hk0, hlen, hne⟩ := hv
      exact ⟨hqk ▸ hk0, by rw [hval]; exact hlen, by rw [hval]; exact hne⟩
    · exact ht q e hq
  obtain ⟨hback, hkept⟩ := hrep.kept s pcs' hr.le (Trie.wf_upsert _ hk hwf) hread
  refine ⟨n', hn', hback, fun q => ?_⟩
  rw [hkept, Trie.find_upsert _ hk hwf]
  simp only [show num q = num k ↔ q = k from ⟨num_inj, congrArg num⟩]

variable (pcs') in
/-- A loaded node one of whose children has been replaced. -/
theorem kept_update {d : NodeData} (hlev : d.level = levelOf (r + 1))
    (hterm : d.terminal = false) (hd : d.dirty = true) (hu : d.unloaded = false) {c : Fin 16 → Node}
    (hc : ∀ j : Fin 16, Backed keccak s b r (16 * p + j) (c j)) {m : Node} {idx : Fin 16}
    (hm : Backed keccak s b r (16 * p + idx) m) :
    Backed keccak s b (r + 1) p (.mk d (Function.update c idx m)) ∧
      ∀ q, kept pcs' s (r + 1) q (.mk d (Function.update c idx m))
        = if keypiece q (nkeypieces - (r + 1)) = idx then kept pcs' s r q m
          else kept pcs' s r q (c (keypiece q (nkeypieces - (r + 1)))) := by
  refine ⟨(backed_inner hterm).mpr ⟨hlev, ?_, fun j => ?_⟩, fun q => ?_⟩
  · rw [hu, hd]
    rintro (h | h) <;> cases h
  · by_cases hj : j = idx
    · rw [hj, Function.update_self]
      exact hm
    · rw [Function.update_of_ne hj]
      exact hc j
  · rw [kept_dirty hterm hd (load_of_loaded hu _), Function.update_apply]
    split <;> rfl

/-- The children of an unread node into which a terminal has been put. -/
def onlyTerminal (r : ℕ) (k : Key) (v : Bytes) (sb bn : UInt64) : Fin 16 → Node :=
  Function.update (fun _ => .nil) (keypiece k (nkeypieces - (r + 1)))
    (newTerminal (levelOf r) k v sb bn)

theorem kept_onlyTerminal (q : Key) :
    kept pcs' s r q (onlyTerminal r k v sb bn (keypiece q (nkeypieces - (r + 1))))
      = if q = k then some ⟨v, sb, bn⟩ else none := by
  unfold onlyTerminal
  by_cases hq : q = k
  · rw [hq, Function.update_self, if_pos rfl, newTerminal, kept_terminal rfl, entryOf, if_pos rfl]
  · rw [if_neg hq, Function.update_apply]
    split
    · rw [newTerminal, kept_terminal rfl, entryOf, if_neg hq]
    · exact kept_nil r q

/-- An unread node into which a terminal has been put. If the flush cannot read it either, the
terminal is all that is left. -/
theorem kept_torn (hl : Lossy s pcs') {d : NodeData} (hlev : d.level = levelOf (r + 1))
    (hterm : d.terminal = false) (hd : d.dirty = true) (hu : d.unloaded = true)
    (ht : ChunkTree keccak s b (r + 1) p d.chunkHash) (hb : b ≤ r)
    (hk : num k / 16 ^ r = 16 * p + keypiece k (nkeypieces - (r + 1)))
    (hv : ReadableEntry (num k) ⟨v, sb, bn⟩) :
    Backed keccak s b (r + 1) p (.mk d (onlyTerminal r k v sb bn))
      ∧ (∀ q, q ≠ k → kept pcs' s (r + 1) q (.mk d (onlyTerminal r k v sb bn))
        = if reads pcs' d.chunkHash then s.find (r + 1) d.chunkHash q else none)
      ∧ (s.find (r + 1) d.chunkHash k ≠ none →
        kept pcs' s (r + 1) k (.mk d (onlyTerminal r k v sb bn)) ≠ none) := by
  refine ⟨(backed_inner hterm).mpr ⟨hlev, fun _ => ht, fun j => ?_⟩, ?_⟩
  · by_cases hj : j = keypiece k (nkeypieces - (r + 1))
    · rw [onlyTerminal, hj, Function.update_self]
      exact (backed_terminal rfl).mpr ⟨rfl, ⟨hb, hk⟩, rfl, hv⟩
    · rw [onlyTerminal, Function.update_of_ne hj]
      exact backed_nil r _
  · obtain ⟨chunk, hs, -, hlen, hrows⟩ := ht
    rcases hread : reads pcs' d.chunkHash with _ | _
    · have hkept := fun q => kept_dirty (s := s) (r := r) (k := q) hterm hd
        (load_unread hread (onlyTerminal r k v sb bn))
      refine ⟨fun q hq => ?_, fun _ => ?_⟩
      · rw [hkept, kept_onlyTerminal, if_neg hq]
        rfl
      · rw [hkept, kept_onlyTerminal, if_pos rfl]
        exact Option.some_ne_none _
    · -- the rows that are not blank come back, over whatever the insertion has put there
      have hback : ∀ q, q ≠ k ∨ s.find (r + 1) d.chunkHash q ≠ none →
          kept pcs' s (r + 1) q (.mk d (onlyTerminal r k v sb bn))
            = s.find (r + 1) d.chunkHash q := by
        intro q hq
        have hrowq := kept_row pcs' hs hlen hrows q
        rw [kept_dirty hterm hd (load_read hl hlev hu hs hlen hread _)]
        rcases hrow : rowAt r chunk (keypiece q (nkeypieces - (r + 1))) with _ | d'
        · have hnone := find_none ((rowOf_eq hs).trans hrow)
          rw [rowNode, Option.elim_none, kept_onlyTerminal, hnone,
            if_neg (hq.resolve_right fun hne => hne hnone)]
        · rw [hrow] at hrowq
          exact hrowq
      refine ⟨fun q hq => hback q (Or.inl hq), fun hk => ?_⟩
      rw [hback k (Or.inr hk)]
      exact hk

/-- The terminal of a row. -/
theorem RowData.represents {d : NodeData} (hd : RowData r d) (hterm : d.terminal = true) :
    Represents keccak Stale Backing.changed r (.mk d fun _ => .nil)
      (.leaf (num d.key) ⟨d.chunkHash, d.storageBytes, d.blockNum⟩) := by
  refine represents_leaf.mpr ⟨d, rfl, ⟨hd.level, hterm, ?_, rfl, rfl, rfl, rfl⟩, False.elim⟩
  rw [hd.unloaded, hterm]
  rfl

theorem torn_read {h : Bytes} (hread : reads pcs h = true) (q : Key) :
    s.torn pcs pcs' (r + 1) h k q =
      (decide (keypiece k (nkeypieces - (r + 1)) = keypiece q (nkeypieces - (r + 1))) &&
        (s.rowOf r h k).elim false fun d => !d.terminal && s.torn pcs pcs' r d.chunkHash k q) := by
  rw [Store.torn, if_pos hread]

theorem torn_unread {h : Bytes} (hread : reads pcs h = false) (q : Key) :
    s.torn pcs pcs' (r + 1) h k q = !reads pcs' h := by
  rw [Store.torn, if_neg (by simp [hread])]

/-- An insertion that can read all of its way loses nothing. -/
theorem torn_of_way {h : Bytes} (hway : ∀ g ∈ s.way r h k, reads pcs g = true) (q : Key) :
    s.torn pcs pcs' r h k q = false := by
  induction r generalizing h with
  | zero => rfl
  | succ r ih =>
    rw [torn_read (hway h List.mem_cons_self)]
    rw [Store.way, List.forall_mem_cons] at hway
    rcases hrow : s.rowOf r h k with _ | d
    · rw [Option.elim_none, Bool.and_false]
    · rw [hrow, Option.elim_some] at hway
      rw [Option.elim_some]
      rcases hterm : d.terminal with _ | _
      · rw [ih (by simpa [hterm] using hway.2), Bool.and_false, Bool.and_false]
      · rw [Bool.not_true, Bool.false_and, Bool.and_false]

/-- `insert` at a node, by what it does to one of the children. -/
theorem insert_succ {d d₁ : NodeData} {c c₁ : Fin 16 → Node} (hload : load pcs d c = .ok (d₁, c₁))
    {m : Node} (hm : insertChild (insert pcs r) d₁.level k v sb bn
      (c₁ (keypiece k (nkeypieces - (r + 1)))) = .ok m) :
    ∃ storageBytes, insert pcs (r + 1) k v sb bn (.mk d c)
      = .ok (.mk { d₁ with dirty := true, storageBytes := storageBytes }
        (Function.update c₁ (keypiece k (nkeypieces - (r + 1))) m)) := by
  unfold insert
  simp only [hload, bind, Except.bind, hm]
  exact ⟨_, rfl⟩

variable (keccak s b) in
/-- What an insertion at a node of the stored tree leaves. -/
structure Inserted (pcs pcs' : Reader) (r p : ℕ) (h : Bytes) (k : Key) (d : NodeData)
    (c : Fin 16 → Node) : Prop where
  terminal : d.terminal = false
  dirty : d.dirty = true
  backed : Backed keccak s b r p (.mk d c)
  others : ∀ q, q ≠ k →
    kept pcs' s r q (.mk d c) = if s.torn pcs pcs' r h k q then none else s.find r h q
  own : s.find r h k ≠ none → kept pcs' s r k (.mk d c) ≠ none

/-- An insertion into a node that cannot be read. -/
theorem insert_unread (hl' : Lossy s pcs') {d : NodeData} (hd : Unread (r + 1) d.chunkHash d)
    (ht : ChunkTree keccak s b (r + 1) p d.chunkHash) (hread : reads pcs d.chunkHash = false)
    (hb : b ≤ r) (hk : num k / 16 ^ r = 16 * p + keypiece k (nkeypieces - (r + 1)))
    (hv : ReadableEntry (num k) ⟨v, sb, bn⟩) :
    ∃ d' c', insert pcs (r + 1) k v sb bn (.mk d fun _ => .nil) = .ok (.mk d' c')
      ∧ Inserted keccak s b pcs pcs' (r + 1) p d.chunkHash k d' c' := by
  have hm : insertChild (insert pcs r) d.level k v sb bn .nil
      = .ok (newTerminal (levelOf r) k v sb bn) := by
    rw [insertChild, hd.level, levelOf_sub]
  obtain ⟨storageBytes, hins⟩ := insert_succ (load_unread hread fun _ => .nil) hm
  obtain ⟨hback, hothers, hkey⟩ := kept_torn (k := k)
    (d := { d with dirty := true, storageBytes := storageBytes }) hl' hd.level hd.terminal rfl
    hd.unloaded ht hb hk hv
  refine ⟨_, _, hins, hd.terminal, rfl, hback, fun q hq => ?_, hkey⟩
  rw [torn_unread hread]
  refine (hothers q hq).trans ?_
  cases reads pcs' d.chunkHash <;> rfl

variable (keccak s pcs b) in
/-- A node of the stored tree that has not been read, and can be. -/
structure Opens (r p : ℕ) (d : NodeData) (chunk : Bytes) : Prop where
  unread : Unread (r + 1) d.chunkHash d
  stored : s.lookup d.chunkHash = some chunk
  length : chunk.length = chunkSize
  rows : RowTrees keccak s b r p chunk
  reads : reads pcs d.chunkHash = true

section
variable {d cd : NodeData} {chunk : Bytes}

/-- The row of a key is that of every key with the same piece. -/
theorem Opens.rowOf_eq (ho : Opens keccak s pcs b r p d chunk) {q : Key}
    (hpiece : keypiece q (nkeypieces - (r + 1)) = keypiece k (nkeypieces - (r + 1))) :
    s.rowOf r d.chunkHash q = rowAt r chunk (keypiece k (nkeypieces - (r + 1))) := by
  rw [Smt.rowOf_eq ho.stored, hpiece]

variable (pcs') in
/-- A row without a subtree cannot be torn. -/
theorem Opens.torn_eq_false (ho : Opens keccak s pcs b r p d chunk)
    (hrow : ∀ cd, rowAt r chunk (keypiece k (nkeypieces - (r + 1))) = some cd → cd.terminal = true)
    (q : Key) : s.torn pcs pcs' (r + 1) d.chunkHash k q = false := by
  rw [torn_read ho.reads, ho.rowOf_eq rfl]
  rcases hcd : rowAt r chunk (keypiece k (nkeypieces - (r + 1))) with _ | cd
  · rw [Option.elim_none, Bool.and_false]
  · rw [Option.elim_some, hrow cd hcd, Bool.not_true, Bool.false_and, Bool.and_false]

variable (pcs') in
/-- In a row with a subtree, what is torn and what is stored are those of the subtree. -/
theorem Opens.inner (ho : Opens keccak s pcs b r p d chunk)
    (hrow : rowAt r chunk (keypiece k (nkeypieces - (r + 1))) = some cd)
    (hterm : cd.terminal = false) {q : Key}
    (hpiece : keypiece q (nkeypieces - (r + 1)) = keypiece k (nkeypieces - (r + 1))) :
    s.torn pcs pcs' (r + 1) d.chunkHash k q = s.torn pcs pcs' r cd.chunkHash k q
      ∧ s.find (r + 1) d.chunkHash q = s.find r cd.chunkHash q := by
  refine ⟨?_, find_inner ((ho.rowOf_eq hpiece).trans hrow) hterm⟩
  rw [torn_read ho.reads, ho.rowOf_eq rfl, hrow, Option.elim_some, hterm, hpiece]
  simp

/-- An insertion into a node that can be read, by what it does to one of the children: there the
keys are kept as the stored tree and the insertion below say. -/
theorem insert_read (hl : Lossy s pcs) (ho : Opens keccak s pcs b r p d chunk) {m : Node}
    (hm : insertChild (insert pcs r) (levelOf (r + 1)) k v sb bn
      (rowNode .nil (rowAt r chunk (keypiece k (nkeypieces - (r + 1))))) = .ok m)
    (hmb : Backed keccak s b r (16 * p + keypiece k (nkeypieces - (r + 1))) m)
    (hothers : ∀ q, q ≠ k → keypiece q (nkeypieces - (r + 1)) = keypiece k (nkeypieces - (r + 1)) →
      kept pcs' s r q m = if s.torn pcs pcs' (r + 1) d.chunkHash k q then none
        else s.find (r + 1) d.chunkHash q)
    (hown : s.find (r + 1) d.chunkHash k ≠ none → kept pcs' s r k m ≠ none) :
    ∃ d' c', insert pcs (r + 1) k v sb bn (.mk d fun _ => .nil) = .ok (.mk d' c')
      ∧ Inserted keccak s b pcs pcs' (r + 1) p d.chunkHash k d' c' := by
  have hd := ho.unread
  have hc : ∀ j : Fin 16, Backed keccak s b r (16 * p + j) (rowNode .nil (rowAt r chunk j)) :=
    fun j => backed_row ho.length ho.rows j (backed_nil r _)
  have hload := load_read hl hd.level hd.unloaded ho.stored ho.length ho.reads fun _ => .nil
  obtain ⟨storageBytes, hins⟩ := insert_succ hload (by simpa only [hd.level] using hm)
  obtain ⟨hback, hkept⟩ := kept_update pcs'
    (d := { d with unloaded := false, dirty := true, storageBytes := storageBytes }) hd.level
    hd.terminal rfl rfl hc hmb
  refine ⟨_, _, hins, hd.terminal, rfl, hback, fun q hq => ?_, fun hk => ?_⟩
  · refine (hkept q).trans ?_
    by_cases hpiece : keypiece q (nkeypieces - (r + 1)) = keypiece k (nkeypieces - (r + 1))
    · rw [if_pos hpiece]
      exact hothers q hq hpiece
    · -- another slot: as it is stored
      rw [if_neg hpiece, torn_read ho.reads, decide_eq_false fun h => hpiece h.symm,
        Bool.false_and]
      exact kept_row _ ho.stored ho.length ho.rows q
  · refine ne_of_eq_of_ne (hkept k) ?_
    rw [if_pos rfl]
    exact hown hk

/-- An insertion into a node that can be read and that has no subtree for the key. -/
theorem insert_slot (hl : Lossy s pcs) (hr : r < nkeypieces)
    (ho : Opens keccak s pcs 0 r p d chunk)
    (hk : num k / 16 ^ r = 16 * p + keypiece k (nkeypieces - (r + 1)))
    (hv : ReadableEntry (num k) ⟨v, sb, bn⟩) {t : EntryTrie}
    (ht : Represents keccak Stale Backing.changed r
      (rowNode .nil (rowAt r chunk (keypiece k (nkeypieces - (r + 1))))) t)
    (hwf : t.WF r (16 * p + keypiece k (nkeypieces - (r + 1))))
    (hreadable : ∀ q e, t.find r q = some e → ReadableEntry q e)
    (hno : ∀ q, s.torn pcs pcs' (r + 1) d.chunkHash k q = false)
    (hfind : ∀ q, keypiece q (nkeypieces - (r + 1)) = keypiece k (nkeypieces - (r + 1)) →
      s.find (r + 1) d.chunkHash q = t.find r (num q)) :
    ∃ d' c', insert pcs (r + 1) k v sb bn (.mk d fun _ => .nil) = .ok (.mk d' c')
      ∧ Inserted keccak s 0 pcs pcs' (r + 1) p d.chunkHash k d' c' := by
  obtain ⟨m, hm, hmb, hkept⟩ := insertChild_kept s pcs' hr hk hv ht hwf hreadable
  refine insert_read hl ho hm hmb (fun q hq hpiece => ?_) fun _ => ?_
  · rw [hkept, if_neg hq, hno q, hfind q hpiece]
    rfl
  · rw [hkept, if_pos rfl]
    exact Option.some_ne_none _

/-- An insertion where the row of the key is blank. -/
theorem insert_blank (hl : Lossy s pcs) (hr : r < nkeypieces)
    (ho : Opens keccak s pcs 0 r p d chunk)
    (hrow : rowAt r chunk (keypiece k (nkeypieces - (r + 1))) = none)
    (hk : num k / 16 ^ r = 16 * p + keypiece k (nkeypieces - (r + 1)))
    (hv : ReadableEntry (num k) ⟨v, sb, bn⟩)
    (hno : ∀ q, s.torn pcs pcs' (r + 1) d.chunkHash k q = false) :
    ∃ d' c', insert pcs (r + 1) k v sb bn (.mk d fun _ => .nil) = .ok (.mk d' c')
      ∧ Inserted keccak s 0 pcs pcs' (r + 1) p d.chunkHash k d' c' := by
  refine insert_slot (t := .nil) hl hr ho hk hv ?_ (Trie.wf_nil _ _) ?_ hno fun q hpiece => ?_
  · rw [hrow]
    exact represents_nil.mpr rfl
  · intro q e hq
    rw [Trie.find_nil] at hq
    cases hq
  · rw [find_none ((ho.rowOf_eq hpiece).trans hrow), Trie.find_nil]

/-- An insertion where the row of the key has a terminal: of this key, or of another one that stays
beside it. -/
theorem insert_beside (hl : Lossy s pcs) (hr : r < nkeypieces)
    (ho : Opens keccak s pcs 0 r p d chunk)
    (hrow : rowAt r chunk (keypiece k (nkeypieces - (r + 1))) = some cd)
    (hterm : cd.terminal = true)
    (hk : num k / 16 ^ r = 16 * p + keypiece k (nkeypieces - (r + 1)))
    (hv : ReadableEntry (num k) ⟨v, sb, bn⟩)
    (hno : ∀ q, s.torn pcs pcs' (r + 1) d.chunkHash k q = false) :
    ∃ d' c', insert pcs (r + 1) k v sb bn (.mk d fun _ => .nil) = .ok (.mk d' c')
      ∧ Inserted keccak s 0 pcs pcs' (r + 1) p d.chunkHash k d' c' := by
  have hcd := rowAt_data ho.length hrow
  have hentry : ∀ q, Trie.find (b := 16) r q
      (.leaf (num cd.key) (⟨cd.chunkHash, cd.storageBytes, cd.blockNum⟩ : Entry))
      = if q = num cd.key then some ⟨cd.chunkHash, cd.storageBytes, cd.blockNum⟩ else none :=
    fun q => Trie.find_leaf ..
  refine insert_slot (t := .leaf (num cd.key) ⟨cd.chunkHash, cd.storageBytes, cd.blockNum⟩)
    hl hr ho hk hv ?_ ?_ ?_ hno fun q hpiece => ?_
  · rw [hrow]
    exact hcd.represents hterm
  · exact Trie.wf_leaf.mpr ((ho.rows _ cd hrow).1 hterm).2
  · intro q e hq
    rw [hentry] at hq
    split at hq
    · rename_i hqk
      rw [← Option.some.inj hq, hqk]
      exact ⟨hcd.key hterm, hcd.length, hcd.hash⟩
    · cases hq
  · rw [find_terminal ((ho.rowOf_eq hpiece).trans hrow) hterm, hentry, entryOf]
    simp only [show num q = num cd.key ↔ q = cd.key from ⟨num_inj, congrArg num⟩]

/-- An insertion where the row of the key has a subtree, by what it does there. -/
theorem insert_below (hl : Lossy s pcs) (ho : Opens keccak s pcs b r p d chunk)
    (hrow : rowAt r chunk (keypiece k (nkeypieces - (r + 1))) = some cd)
    (hterm : cd.terminal = false) {d' : NodeData} {c' : Fin 16 → Node}
    (hins : insert pcs r k v sb bn (.mk cd fun _ => .nil) = .ok (.mk d' c'))
    (hres : Inserted keccak s b pcs pcs' r (16 * p + keypiece k (nkeypieces - (r + 1)))
      cd.chunkHash k d' c') :
    ∃ d' c', insert pcs (r + 1) k v sb bn (.mk d fun _ => .nil) = .ok (.mk d' c')
      ∧ Inserted keccak s b pcs pcs' (r + 1) p d.chunkHash k d' c' := by
  refine insert_read hl ho (m := .mk d' c') ?_ hres.backed (fun q hq hpiece => ?_) ?_
  · rw [hrow, rowNode, Option.elim_some, insertChild, if_neg (by simp [hterm])]
    exact hins
  · obtain ⟨htorn, hfind⟩ := ho.inner pcs' hrow hterm hpiece
    rw [htorn, hfind]
    exact hres.others q hq
  · rw [(ho.inner pcs' hrow hterm rfl).2]
    exact hres.own

/-- A key that an insertion tears, below the row of the key that is inserted. -/
theorem Opens.torn_below (ho : Opens keccak s pcs b r p d chunk)
    (hrow : rowAt r chunk (keypiece k (nkeypieces - (r + 1))) = some cd)
    (hterm : cd.terminal = false) {q : Key} (hq : s.torn pcs pcs' (r + 1) d.chunkHash k q = true)
    (hne : s.find (r + 1) d.chunkHash q ≠ none) :
    s.torn pcs pcs' r cd.chunkHash k q = true ∧ s.find r cd.chunkHash q ≠ none := by
  have hpiece : keypiece q (nkeypieces - (r + 1)) = keypiece k (nkeypieces - (r + 1)) := by
    rw [torn_read ho.reads, Bool.and_eq_true, decide_eq_true_eq] at hq
    exact hq.1.symm
  obtain ⟨htorn, hfind⟩ := ho.inner pcs' hrow hterm hpiece
  rw [htorn] at hq
  rw [hfind] at hne
  exact ⟨hq, hne⟩

end

/-- `insert` at a node that has not been read. Terminals stay above the bottom if the insertion
loses a key. -/
theorem insert_lossy (hl : Lossy s pcs) (hl' : Lossy s pcs') (hr : r ≤ nkeypieces) {h : Bytes}
    (ht : ChunkTree keccak s b r p h) (hk : num k / 16 ^ r = p)
    (hv : ReadableEntry (num k) ⟨v, sb, bn⟩)
    (hb : b = 0 ∨ ∃ q, s.torn pcs pcs' r h k q = true ∧ s.find r h q ≠ none) {d : NodeData}
    (hd : Unread r h d) :
    ∃ d' c', insert pcs r k v sb bn (.mk d fun _ => .nil) = .ok (.mk d' c')
      ∧ Inserted keccak s b pcs pcs' r p h k d' c' := by
  induction r generalizing p h d with
  | zero => exact ht.elim
  | succ r ih =>
    obtain rfl := hd.chunkHash
    obtain ⟨chunk, hs, -, hlen, hrows⟩ := id ht
    have hdiv := Trie.div_pow_eq hk
    rw [← keypiece_eq_digit k hr] at hdiv
    rcases hread : reads pcs d.chunkHash with _ | _
    · refine insert_unread hl' hd ht hread ?_ hdiv hv
      rcases hb with rfl | ⟨q, -, hq⟩
      · exact Nat.zero_le r
      · exact ht.le_of_find hq
    · have ho : Opens keccak s pcs b r p d chunk := ⟨hd, hs, hlen, hrows, hread⟩
      -- where nothing is torn, nothing is asked of the heights
      have hzero : (∀ q, s.torn pcs pcs' (r + 1) d.chunkHash k q = false) → b = 0 := by
        intro hno
        refine hb.resolve_right ?_
        rintro ⟨q, hq, -⟩
        rw [hno q] at hq
        cases hq
      rcases hrow : rowAt r chunk (keypiece k (nkeypieces - (r + 1))) with _ | cd
      · have hno := ho.torn_eq_false pcs' (k := k) (by simp [hrow])
        obtain rfl := hzero hno
        exact insert_blank hl hr ho hrow hdiv hv hno
      · rcases hterm : cd.terminal with _ | _
        · obtain ⟨d', c', hins, hres⟩ := ih (by omega) ((hrows _ cd hrow).2 hterm) hdiv
            (hb.imp_right fun ⟨q, hq, hne⟩ => ⟨q, ho.torn_below hrow hterm hq hne⟩)
            ((rowAt_data hlen hrow).unread hterm)
          exact insert_below hl ho hrow hterm hins hres
        · have hno := ho.torn_eq_false pcs' (k := k) (by simp [hrow, hterm])
          obtain rfl := hzero hno
          exact insert_beside hl hr ho hrow hterm hdiv hv hno

end

/-! ## Merkle roots -/

section
variable {b r p : ℕ} {d : NodeData} {c : Fin 16 → Node}

/-- What `computeMerkleRoot` with the given reader makes of a node: nothing that is going to be
stored changes, and it returns if no terminal is at the bottom. -/
def KeepsContents (keccak : Bytes → Hash) (s : Store) (pcs : Reader) (b r p : ℕ) (n : Node)
    (res : Go Node) : Prop :=
  (∀ n', res = .ok n' → Backed keccak s b r p n' ∧ ∀ k, kept noReads s r k n' = kept pcs s r k n) ∧
    (1 ≤ b → ∃ n', res = .ok n')

theorem KeepsContents.of_error {n : Node} {e : Panic} (hb : ¬ 1 ≤ b) :
    KeepsContents keccak s pcs b r p n (.error e) := by
  refine ⟨fun n' h => ?_, fun h => (hb h).elim⟩
  cases h

theorem KeepsContents.of_ok {n n' : Node} (hn' : Backed keccak s b r p n')
    (hkept : ∀ k, kept noReads s r k n' = kept pcs s r k n) :
    KeepsContents keccak s pcs b r p n (.ok n') := by
  refine ⟨fun n'' h => ?_, fun _ => ⟨n', rfl⟩⟩
  rw [← Except.ok.inj h]
  exact ⟨hn', hkept⟩

theorem computeMerkleRoot_terminal_kept (hr : r ≤ nkeypieces) (hterm : d.terminal = true)
    (hn : Backed keccak s b r p (.mk d c)) (fuel : ℕ) :
    KeepsContents keccak s pcs b r p (.mk d c)
      (computeMerkleRoot keccak pcs (fuel + 1) (.mk d c)) := by
  obtain ⟨hlev, hd⟩ := (backed_terminal hterm).mp hn
  unfold computeMerkleRoot
  simp only [load_of_loaded hd.loaded, bind, Except.bind, hterm, if_true]
  rcases hroot : terminalRoot keccak d with e | root
  · refine .of_error fun hb => ?_
    -- above the bottom the level is in range
    have hheight := hd.height.1
    rw [terminalRoot, hlev, if_pos] at hroot
    · cases hroot
    · unfold levelOf nkeypieces treeDepth at *
      omega
  · refine .of_ok ((backed_terminal rfl).mpr ⟨hlev, hd.height, hd.loaded, hd.readable⟩) fun k => ?_
    rw [kept_terminal rfl, kept_terminal hterm]
    rfl

/-- The flush reads the unread nodes once more, then computes every Merkle root: nothing that is
going to be stored changes. -/
theorem computeMerkleRoot_kept (hl : Lossy s pcs) (hr : r ≤ nkeypieces) {n : Node}
    (hn : Backed keccak s b r p n) :
    KeepsContents keccak s pcs b r p n (onChild (computeMerkleRoot keccak pcs (r + 1)) n) := by
  induction r generalizing p n with
  | zero =>
    rcases n with _ | ⟨d, c⟩
    · exact .of_ok (backed_nil 0 p) fun _ => rfl
    · exact computeMerkleRoot_terminal_kept hr hn.2.1 hn 0
  | succ r ih =>
    rcases n with _ | ⟨d, c⟩
    · exact .of_ok (backed_nil _ p) fun _ => rfl
    rcases hterm : d.terminal with _ | _
    · obtain ⟨hlev, htree, -⟩ := (backed_inner hterm).mp hn
      obtain ⟨u, c₁, hload, hu, hc₁⟩ := load_backed hl hterm hn
      have hchild := fun i => ih (by omega) (hc₁ i)
      rw [onChild]
      unfold computeMerkleRoot
      simp only [hload, bind, Except.bind, hterm, Bool.false_eq_true, if_false]
      rcases hcoll : collect (fun i => onChild (computeMerkleRoot keccak pcs (r + 1)) (c₁ i))
        with e | c₂
      -- above the bottom no child fails
      · refine .of_error fun hb => ?_
        choose c₂ hc₂ using fun i => (hchild i).2 hb
        rw [collect_eq_ok.mpr hc₂] at hcoll
        cases hcoll
      · have hc₂ := fun i => (hchild i).1 (c₂ i) (collect_eq_ok.mp hcoll i)
        simp only [hlev, computeMerkleRootCache_ok keccak hr]
        refine .of_ok ((backed_inner rfl).mpr ⟨rfl, fun hor => ?_, fun j => (hc₂ j).1⟩) fun k => ?_
        · exact htree (hor.imp_left hu)
        · rcases hd : d.dirty with _ | _
          · rw [kept_clean hterm hd]
            exact kept_clean rfl rfl
          · rw [kept_dirty hterm hd hload, kept_dirty rfl rfl (load_noReads _ _)]
            exact (hc₂ _).2 k
    · exact computeMerkleRoot_terminal_kept hr hterm hn (r + 1)

theorem load_terminal {d' : NodeData} {c' : Fin 16 → Node} (h : load pcs d c = .ok (d', c')) :
    d'.terminal = d.terminal := by
  rw [load] at h
  split at h
  · rcases hp : pcs d.chunkHash with _ | _ | chunk
    · simp only [hp, Except.ok.injEq, Prod.mk.injEq] at h
      rw [← h.1]
    · simp only [hp, Except.ok.injEq, Prod.mk.injEq] at h
      rw [← h.1]
    · simp only [hp] at h
      obtain ⟨c₁, -, h⟩ := bind_eq_ok.mp h
      rw [← (Prod.mk.inj (Except.ok.inj h)).1]
  · rw [← (Prod.mk.inj (Except.ok.inj h)).1]

variable (keccak) in
/-- The pair whose hash is the Merkle root of an inner node. -/
def rootPair : Node → Bytes
  | .nil => []
  | .mk d c =>
    mrcache keccak (slots keccak d.level c) 3 0 ++ mrcache keccak (slots keccak d.level c) 3 1

theorem length_rootPair : (rootPair keccak (.mk d c)).length = 64 := by
  rw [rootPair, List.length_append]
  exact congrArg₂ (· + ·) (keccak _).2 (keccak _).2

/-- The Merkle root of an inner node that has been computed; the flags stay. -/
theorem computeMerkleRoot_inner {fuel : ℕ} (hterm : d.terminal = false) {n' : Node}
    (h : computeMerkleRoot keccak pcs (fuel + 1) (.mk d c) = .ok n') :
    ∃ d' c', n' = .mk d' c' ∧ d'.terminal = false ∧
      d'.merkleRoot = (keccak (rootPair keccak (.mk d' c'))).1 := by
  unfold computeMerkleRoot at h
  obtain ⟨⟨d₁, c₁⟩, hload, h⟩ := bind_eq_ok.mp h
  have hd₁ : d₁.terminal = false := (load_terminal hload).trans hterm
  simp only [hd₁, Bool.false_eq_true, if_false] at h
  obtain ⟨c₂, -, h⟩ := bind_eq_ok.mp h
  obtain ⟨root, hroot, h⟩ := bind_eq_ok.mp h
  rw [computeMerkleRootCache] at hroot
  split at hroot
  · obtain rfl := Except.ok.inj hroot
    obtain rfl := Except.ok.inj h
    exact ⟨_, _, rfl, rfl, rfl⟩
  · cases hroot

end

/-! ## Flushes -/

section
variable {b r p : ℕ}

variable (keccak) in
/-- `flush` keeps an inner node an inner node. -/
theorem flush_stays_inner {d : NodeData} {c : Fin 16 → Node} (hterm : d.terminal = false) :
    ∃ d' c', (flush keccak (.mk d c)).1 = .mk d' c' ∧ d'.terminal = false := by
  rcases hd : d.dirty with _ | _
  · rw [flush_clean hd]
    exact ⟨d, c, rfl, hterm⟩
  · rw [flush_dirty hd]
    exact ⟨_, _, rfl, hterm⟩

/-- The tree under the hash that a node has holds what the node was going to keep. -/
def HashKeeps (keccak : Bytes → Hash) (s s' : Store) (b r p : ℕ) (n n' : Node) : Prop :=
  ChunkTree keccak s' b r p (SparseMerkleTree.rootHash n')
    ∧ ∀ k, s'.find r (SparseMerkleTree.rootHash n') k = kept noReads s r k n

/-- The rows of a flushed node, given what the flush does to its inner children. -/
theorem flushChild_row {s' : Store}
    (hzero : ∀ chunk, s'.lookup (keccak chunk).1 = some chunk → (keccak chunk).1 ≠ Bytes.zeros 32)
    {c : Fin 16 → Node} (hc : ∀ j : Fin 16, Backed keccak s b r (16 * p + j) (c j)) (j : Fin 16)
    (hinner : ∀ cd cc, c j = .mk cd cc → cd.terminal = false →
      HashKeeps keccak s s' b r (16 * p + j) (.mk cd cc) (flush keccak (.mk cd cc)).1) :
    RowSays keccak s' b r (16 * p + j)
      (rowAt r (nodeChunk fun j => row (flushChild keccak (c j)).1) j)
      fun k => kept noReads s r k (c j) := by
  rcases hcj : c j with _ | ⟨cd, cc⟩
  · refine Or.inl ⟨rowAt_blank (fun j => length_row _) ?_, kept_nil r⟩
    rw [hcj]
    rfl
  -- an inner child is flushed and has its hash in the row, a terminal has its entry there
  · rcases hct : cd.terminal with _ | _
    · have hchild : (flushChild keccak (c j)).1 = (flush keccak (.mk cd cc)).1 := by
        rw [hcj, flushChild, isInner, hct]
        rfl
      obtain ⟨ht', hfind⟩ := hinner cd cc hcj hct
      obtain ⟨d₁, c₁, hflush, hd₁⟩ := flush_stays_inner keccak (c := cc) hct
      obtain ⟨chunk, hhash, hs'⟩ := ht'.hash
      rw [hflush] at ht' hfind hhash
      have hrow : row (flushChild keccak (c j)).1 = rowBytes (Bytes.zeros 8) (keccak chunk).1
          d₁.storageBytes d₁.merkleRoot d₁.blockNum := by
        rw [hchild, hflush, row_mk, if_neg (by simp [hd₁]), ← hhash]
        rfl
      obtain ⟨d', hd', hterm', hsame⟩ := rowAt_inner (r := r)
        (fun j => length_row (flushChild keccak (c j)).1) hrow
        (keccak chunk).2 (hzero chunk hs')
      rw [hhash, ← hsame] at ht' hfind
      exact Or.inr (Or.inr ⟨d', hd', hterm', ht', hfind⟩)
    · have hback := hc j
      rw [hcj] at hback
      obtain ⟨-, hterminal⟩ := (backed_terminal hct).mp hback
      have hrow : row (flushChild keccak (c j)).1 = rowBytes cd.key.1 cd.chunkHash cd.storageBytes
          cd.merkleRoot cd.blockNum := by
        rw [hcj, flushChild, isInner, hct]
        exact (row_mk cd cc).trans (by rw [if_pos hct])
      obtain ⟨d', hd', hterm', hkey, hentry⟩ := rowAt_terminal (r := r)
        (fun j => length_row (flushChild keccak (c j)).1) hrow
        hterminal.readable
      refine Or.inr (Or.inl ⟨d', hd', hterm', hkey.symm ▸ hterminal.height, fun k => ?_⟩)
      exact (hentry k).trans (kept_terminal hct).symm

/-- `flush` stores what is in memory. -/
theorem flush_kept {s' : Store} (hkeep : s.Keeps keccak s')
    (hzero : ∀ chunk, s'.lookup (keccak chunk).1 = some chunk → (keccak chunk).1 ≠ Bytes.zeros 32)
    {d : NodeData} {c : Fin 16 → Node} (hterm : d.terminal = false)
    (hn : Backed keccak s b r p (.mk d c))
    (hw : ∀ w ∈ (flush keccak (.mk d c)).2, s'.lookup w.1 = some w.2) :
    HashKeeps keccak s s' b r p (.mk d c) (flush keccak (.mk d c)).1 := by
  induction r generalizing p d c with
  | zero =>
    have hinner := hn.2.1
    rw [hterm] at hinner
    cases hinner
  | succ r ih =>
    obtain ⟨hlev, htree, hc⟩ := (backed_inner hterm).mp hn
    rcases hd : d.dirty with _ | _
    · -- a clean node keeps its chunk
      obtain ⟨ht', hfind⟩ := (htree (Or.inr hd)).mono hkeep
      rw [flush_clean hd]
      refine ⟨ht', fun k => ?_⟩
      rw [kept_clean hterm hd]
      exact hfind k
    · rw [flush_dirty hd] at hw ⊢
      have hrow : ∀ j : Fin 16, RowSays keccak s' b r (16 * p + j)
          (rowAt r (nodeChunk fun j => row (flushChild keccak (c j)).1) j)
          fun k => kept noReads s r k (c j) := by
        intro j
        refine flushChild_row hzero hc j fun cd cc hcj hct => ih hct (hcj ▸ hc j) fun w hmem => ?_
        apply hw w (List.mem_append_left _ (List.mem_flatMap.mpr ⟨j, List.mem_finRange j, ?_⟩))
        rw [hcj, flushChild, isInner, hct]
        exact hmem
      have hs' := hw _ (List.mem_append_right _ (List.mem_singleton_self _))
      obtain ⟨ht', hfind⟩ := chunkTree_of_rows hs' (length_nodeChunk fun j => length_row _) hrow
      refine ⟨ht', fun k => ?_⟩
      rw [kept_dirty hterm hd (load_noReads d c)]
      exact hfind k

end

/-! ## Trees -/

variable (keccak) in
/-- A tree that is in the store, with no terminal at the bottom. -/
def StoredTree (s : Store) (h : Bytes) : Prop := ChunkTree keccak s 1 nkeypieces 0 h

/-- What a stored tree holds. -/
def Store.contents (s : Store) (h : Bytes) : Contents := s.find nkeypieces h

/-- The chunks on the way of a key in a stored tree. -/
def Store.path (s : Store) (h : Bytes) (k : Key) : List Bytes := s.way nkeypieces h k

theorem setHash_unread (h : Bytes) :
    ∃ d, setHash h SparseMerkleTree.new = .mk d (fun _ => .nil) ∧ Unread nkeypieces h d :=
  ⟨_, rfl, rfl, rfl, rfl, rfl, rfl⟩

section
variable {h : Bytes} {root : Hash}

theorem StoredTree.ne_nil (ht : StoredTree keccak s h) : h.length ≠ 0 := by
  obtain ⟨chunk, rfl, -⟩ := ChunkTree.hash ht
  rw [(keccak chunk).2]
  decide

theorem initWithRoot_read (ht : h.length ≠ 0) (hl : Lossy s pcs) (hroot : s.lookup root.1 = some h)
    (hr : reads pcs root.1 = true) (t : Node) :
    SparseMerkleTree.initWithRoot pcs root t = (true, setHash h t) := by
  rw [SparseMerkleTree.initWithRoot, hl.found hroot hr]
  simp only [if_neg ht]

theorem initWithRoot_unread (hr : reads pcs root.1 = false) (t : Node) :
    SparseMerkleTree.initWithRoot pcs root t = (false, t) := by
  rw [reads] at hr
  rw [SparseMerkleTree.initWithRoot]
  rcases hp : pcs root.1 with _ | _ | chunk
  · rfl
  · rfl
  · simp only [hp, Bool.true_eq_false] at hr

/-- `Get` at an unread root: what it finds, and that it reports no error. -/
theorem get_unread {b : ℕ} (hl : Lossy s pcs) (ht : ChunkTree keccak s b nkeypieces 0 h)
    {d : NodeData} (hd : Unread nkeypieces h d) (k : Key) :
    ∃ x t', SparseMerkleTree.get keccak pcs k (.mk d fun _ => .nil) = .ok (x, t') ∧ x.err = none
      ∧ (x.found = true ↔ (∀ g ∈ s.path h k, reads pcs g = true) ∧ s.contents h k ≠ none) := by
  obtain ⟨d', c', hget, hproof⟩ := get_lossy hl le_rfl ht hd k
  unfold Store.path Store.contents SparseMerkleTree.get
  simp only [hget, bind, Except.bind]
  by_cases hway : ∀ g ∈ s.way nkeypieces h k, reads pcs g = true
  · rw [if_pos hway]
    rcases hfind : s.find nkeypieces h k with _ | e
    · exact ⟨_, _, rfl, rfl, by simp⟩
    · obtain ⟨-, hprove⟩ := hproof hway (by rw [hfind]; exact Option.some_ne_none e)
      obtain ⟨p, n', hgen⟩ := hprove ⟨k, [], 0⟩
      simp only [hgen]
      exact ⟨_, _, rfl, rfl, fun _ => ⟨hway, Option.some_ne_none e⟩, fun _ => rfl⟩
  · rw [if_neg hway]
    exact ⟨_, _, rfl, rfl, by simp [hway]⟩

/-- A new tree holds nothing. -/
theorem get_new (k : Key) :
    SparseMerkleTree.get keccak pcs k SparseMerkleTree.new
      = .ok (⟨[], false, none, 0, 0, none⟩, SparseMerkleTree.new) := rfl

/-- `Get` on a tree that is opened at its Merkle root. -/
theorem get_reopened {pcs₀ : Reader} (hl₀ : Lossy s pcs₀) (hl : Lossy s pcs)
    (ht : StoredTree keccak s h) (hroot : s.lookup root.1 = some h) (k : Key) :
    ∃ x t', SparseMerkleTree.get keccak pcs k
        (SparseMerkleTree.initWithRoot pcs₀ root SparseMerkleTree.new).2 = .ok (x, t')
      ∧ x.err = none
      ∧ (x.found = true ↔ (reads pcs₀ root.1 = true ∧ ∀ g ∈ s.path h k, reads pcs g = true)
        ∧ s.contents h k ≠ none) := by
  rcases hr : reads pcs₀ root.1 with _ | _
  · rw [initWithRoot_unread hr, get_new]
    exact ⟨_, _, rfl, rfl, by simp⟩
  · obtain ⟨d, hopen, hd⟩ := setHash_unread h
    rw [initWithRoot_read ht.ne_nil hl₀ hroot hr, hopen]
    simpa using get_unread hl ht hd k

/-! ## Insertions into a tree that is opened again -/

/-- Whether an insertion of `k`, into a tree that is opened with `pcs₀`, and a flush lose `q`. -/
def Store.loses (s : Store) (pcs₀ pcs pcs' : Reader) (root : Hash) (h : Bytes) (k q : Key) : Bool :=
  !reads pcs₀ root.1 || s.torn pcs pcs' nkeypieces h k q

variable {pcs₀ pcs' : Reader} {k : Key} {v : Bytes} {sb bn : UInt64}

variable (keccak) in
/-- What an insertion into the opened tree leaves. -/
structure InsertedAt (s : Store) (b : ℕ) (pcs₀ pcs pcs' : Reader) (root : Hash) (h : Bytes)
    (k : Key) (d : NodeData) (c : Fin 16 → Node) : Prop where
  terminal : d.terminal = false
  dirty : d.dirty = true
  backed : Backed keccak s b nkeypieces 0 (.mk d c)
  others : ∀ q, q ≠ k → kept pcs' s nkeypieces q (.mk d c)
    = if s.loses pcs₀ pcs pcs' root h k q then none else s.contents h q
  own : s.contents h k ≠ none → kept pcs' s nkeypieces k (.mk d c) ≠ none

variable (keccak s pcs pcs') in
/-- An insertion into a new tree. -/
theorem insert_new {b : ℕ} (hb : b < nkeypieces) (hv : ReadableEntry (num k) ⟨v, sb, bn⟩) :
    ∃ d c, SparseMerkleTree.insert pcs k v sb bn SparseMerkleTree.new = .ok (.mk d c)
      ∧ d.terminal = false ∧ d.dirty = true ∧ Backed keccak s b nkeypieces 0 (.mk d c)
      ∧ ∀ q, kept pcs' s nkeypieces q (.mk d c) = if q = k then some ⟨v, sb, bn⟩ else none := by
  have hload : load pcs (newData (treeDepth - 1)) (fun _ => .nil)
      = .ok (newData (treeDepth - 1), fun _ => .nil) := load_of_loaded rfl _
  have hchild : insertChild (insert pcs 15) (newData (treeDepth - 1)).level k v sb bn .nil
      = .ok (newTerminal (levelOf 15) k v sb bn) := rfl
  obtain ⟨storageBytes, hins⟩ := insert_succ (r := 15) hload hchild
  have hdiv := Trie.div_pow_eq (r := 15) (num_div_top k)
  rw [← keypiece_eq_digit k (by decide)] at hdiv
  have hterm : Backed keccak s b 15 (16 * 0 + keypiece k (nkeypieces - 16))
      (newTerminal (levelOf 15) k v sb bn) :=
    (backed_terminal rfl).mpr ⟨rfl, ⟨Nat.le_of_lt_succ hb, hdiv⟩, rfl, hv⟩
  obtain ⟨hback, hkept⟩ := kept_update pcs' (r := 15)
    (d := { newData (treeDepth - 1) with dirty := true, storageBytes := storageBytes }) rfl rfl rfl
    rfl (fun _ => backed_nil 15 _) hterm
  refine ⟨_, _, hins, rfl, rfl, hback, fun q => (hkept q).trans ?_⟩
  by_cases hq : q = k
  · rw [if_pos hq, hq, if_pos rfl, newTerminal, kept_terminal rfl, entryOf, if_pos rfl]
  · rw [if_neg hq]
    split
    · rw [newTerminal, kept_terminal rfl, entryOf, if_neg hq]
    · exact kept_nil 15 q

/-- `Insert` into a tree that is opened at its Merkle root. -/
theorem insert_reopened (hl₀ : Lossy s pcs₀) (hl : Lossy s pcs) (hl' : Lossy s pcs')
    (ht : StoredTree keccak s h) (hroot : s.lookup root.1 = some h) {b : ℕ}
    (hv : ReadableEntry (num k) ⟨v, sb, bn⟩)
    (hb : b = 0 ∨ b = 1 ∧ ∃ q, s.loses pcs₀ pcs pcs' root h k q = true ∧ s.contents h q ≠ none) :
    ∃ d c, SparseMerkleTree.insert pcs k v sb bn
        (SparseMerkleTree.initWithRoot pcs₀ root SparseMerkleTree.new).2 = .ok (.mk d c)
      ∧ InsertedAt keccak s b pcs₀ pcs pcs' root h k d c := by
  have hb1 : b ≤ 1 := by
    rcases hb with rfl | ⟨rfl, -⟩
    · exact Nat.zero_le 1
    · exact le_rfl
  -- if the root cannot be read, the tree is opened as a new one
  rcases hr : reads pcs₀ root.1 with _ | _
  · rw [initWithRoot_unread hr]
    obtain ⟨d, c, hins, hterm, hd, hback, hkept⟩ := insert_new keccak s pcs pcs'
      (hb1.trans_lt (by decide)) hv
    refine ⟨d, c, hins, hterm, hd, hback, fun q hq => ?_, fun _ => ?_⟩
    · rw [hkept, if_neg hq, Store.loses, hr]
      rfl
    · rw [hkept, if_pos rfl]
      exact Option.some_ne_none _
  · have hloses : ∀ q, s.loses pcs₀ pcs pcs' root h k q = s.torn pcs pcs' nkeypieces h k q := by
      intro q
      rw [Store.loses, hr]
      rfl
    obtain ⟨d, hopen, hd⟩ := setHash_unread h
    rw [initWithRoot_read ht.ne_nil hl₀ hroot hr, hopen]
    obtain ⟨d', c', hins, hres⟩ := insert_lossy hl hl' le_rfl (ChunkTree.lower hb1 ht)
      (num_div_top k) hv (hb.imp_right fun ⟨_, q, hq, hne⟩ => ⟨q, hloses q ▸ hq, hne⟩) hd
    refine ⟨d', c', hins, hres.terminal, hres.dirty, hres.backed, fun q hq => ?_, hres.own⟩
    rw [hloses]
    exact hres.others q hq

/-! ## Flushes of a tree -/

variable (keccak) in
/-- The strings that are hashed into a store by a flush that leaves the tree `n`: those that are
there under their own hash, and the pair below the Merkle root. -/
def flushedStrings (s : Store) (n : Node) : Set Bytes :=
  {x | ((keccak x).1, x) ∈ s ∨ x = rootPair keccak n}

theorem slotRoot_flush (dh : Bytes) (n : Node) :
    slotRoot dh (flush keccak n).1 = slotRoot dh n := by
  rcases n with _ | ⟨d, c⟩
  · rfl
  · rcases hd : d.dirty with _ | _
    · rw [flush_clean hd]
    · rw [flush_dirty hd]
      rfl

/-- A flush does not change the pair below the Merkle root. -/
theorem rootPair_flush (n : Node) : rootPair keccak (flush keccak n).1 = rootPair keccak n := by
  rcases n with _ | ⟨d, c⟩
  · rfl
  · rcases hd : d.dirty with _ | _
    · rw [flush_clean hd]
    · have hslots : slots keccak d.level (fun j => (flushChild keccak (c j)).1)
          = slots keccak d.level c := by
        funext i
        rw [slots, slots, flushChild]
        split
        · exact slotRoot_flush _ (c i)
        · rfl
      rw [flush_dirty hd, rootPair, rootPair, hslots]

variable {d : NodeData} {c : Fin 16 → Node} {n' : Node} {writes : List (Bytes × Bytes)} {b : ℕ}

/-- `Flush` returns if no terminal is at the bottom. -/
theorem flush_returns (hl' : Lossy s pcs') (hn : Backed keccak s 1 nkeypieces 0 (.mk d c)) :
    ∃ n' writes, SparseMerkleTree.flush keccak pcs' (.mk d c) = .ok (n', writes) := by
  obtain ⟨n₁, hcomp⟩ := (computeMerkleRoot_kept hl' le_rfl hn).2 le_rfl
  rw [onChild] at hcomp
  unfold SparseMerkleTree.flush
  simp only [hcomp, bind, Except.bind]
  exact ⟨_, _, rfl⟩

/-- `Flush` of an inner node: the nodes are written, then the chunk hash under the Merkle root. -/
theorem flush_eq_ok (hterm : d.terminal = false)
    (h : SparseMerkleTree.flush keccak pcs' (.mk d c) = .ok (n', writes)) :
    ∃ d₁ c₁, computeMerkleRoot keccak pcs' (nkeypieces + 1) (.mk d c) = .ok (.mk d₁ c₁)
      ∧ d₁.terminal = false ∧ n' = (flush keccak (.mk d₁ c₁)).1
      ∧ writes = (flush keccak (.mk d₁ c₁)).2
        ++ [((keccak (rootPair keccak n')).1, SparseMerkleTree.rootHash n')]
      ∧ SparseMerkleTree.rootMerkle n' = (keccak (rootPair keccak n')).1
      ∧ (rootPair keccak n').length = 64 := by
  unfold SparseMerkleTree.flush at h
  obtain ⟨n₁, hcomp, hres⟩ := bind_eq_ok.mp h
  obtain ⟨hn', hwrites⟩ := Prod.mk.inj (Except.ok.inj hres)
  obtain ⟨d₁, c₁, rfl, hterm₁, hpair⟩ := computeMerkleRoot_inner hterm hcomp
  have hmerkle : SparseMerkleTree.rootMerkle n' = (keccak (rootPair keccak n')).1 := by
    rw [← hn', rootMerkle_flush, rootPair_flush]
    exact hpair
  refine ⟨d₁, c₁, hcomp, hterm₁, hn'.symm, ?_, hmerkle, ?_⟩
  · rw [← hwrites, ← hmerkle, ← hn']
  · rw [← hn', rootPair_flush]
    exact length_rootPair

/-- After a flush, the Merkle root leads to the chunk hash. -/
theorem lookup_merkleRoot (hterm : d.terminal = false)
    (h : SparseMerkleTree.flush keccak pcs' (.mk d c) = .ok (n', writes)) :
    (s.setChunks writes).lookup (SparseMerkleTree.merkleRoot n').1
      = some (SparseMerkleTree.rootHash n') := by
  obtain ⟨d₁, c₁, -, -, -, hwrites, hmerkle, -⟩ := flush_eq_ok hterm h
  have hroot : (SparseMerkleTree.merkleRoot n').1 = (keccak (rootPair keccak n')).1 := by
    rw [SparseMerkleTree.merkleRoot, hmerkle, bytesToHash_of_length (keccak _).2]
  rw [hroot, Store.setChunks, hwrites, List.reverse_append]
  exact List.lookup_cons_self

/-- A tree is opened by its chunk hash, and by the Merkle root that leads to it. -/
theorem open_eq {s' : Store} (hhash : (SparseMerkleTree.rootHash n').length = 32)
    (hlook : s'.lookup (SparseMerkleTree.merkleRoot n').1 = some (SparseMerkleTree.rootHash n'))
    (via : Handle) :
    via.open s' ⟨n', s'⟩ = setHash (SparseMerkleTree.rootHash n') SparseMerkleTree.new := by
  rcases via with _ | _
  · rw [Handle.open, SparseMerkleTree.init, SparseMerkleTree.chunkHash, bytesToHash_of_length hhash]
  · rw [Handle.open, initWithRoot_read (by rw [hhash]; decide) (lossy_getChunk s') hlook
      (reads_getChunk hlook)]

/-- The writes of a flush, where nothing collides. -/
theorem sane_writes (hterm : d.terminal = false)
    (hflush : SparseMerkleTree.flush keccak pcs' (.mk d c) = .ok (n', writes)) :
    Sane keccak (flushedStrings keccak (s.setChunks writes) n') writes.reverse := by
  obtain ⟨d₁, c₁, -, -, -, hwrites, -, h64⟩ := flush_eq_ok hterm hflush
  intro w hw
  have hw' := List.mem_reverse.mp hw
  rw [hwrites, List.mem_append, List.mem_singleton] at hw'
  rcases hw' with hw' | rfl
  · obtain ⟨hkey, hlen⟩ := flush_writes _ w hw'
    refine Or.inl ⟨hkey, hlen, Or.inl ?_⟩
    rw [← hkey]
    exact List.mem_append_left _ hw
  · exact Or.inr ⟨_, Or.inr rfl, h64, rfl⟩

/-- `Flush` stores what the tree in memory was going to keep, under both of its hashes. -/
theorem flush_contents (hl' : Lossy s pcs') (hterm : d.terminal = false)
    (hn : Backed keccak s b nkeypieces 0 (.mk d c))
    (hflush : SparseMerkleTree.flush keccak pcs' (.mk d c) = .ok (n', writes))
    (hcf : CollisionFree keccak (flushedStrings keccak (s.setChunks writes) n')) :
    ChunkTree keccak (s.setChunks writes) b nkeypieces 0 (SparseMerkleTree.rootHash n')
      ∧ (∀ q, (s.setChunks writes).contents (SparseMerkleTree.rootHash n') q
        = kept pcs' s nkeypieces q (.mk d c))
      ∧ ∀ via : Handle, via.open (s.setChunks writes) ⟨n', s.setChunks writes⟩
        = setHash (SparseMerkleTree.rootHash n') SparseMerkleTree.new := by
  obtain ⟨d₁, c₁, hcomp, hterm₁, hn', hwrites, -, -⟩ := flush_eq_ok hterm hflush
  obtain ⟨hback, hkept⟩ := (computeMerkleRoot_kept hl' le_rfl hn).1 _ hcomp
  have hsane := sane_writes (s := s) hterm hflush
  have hkeep : s.Keeps keccak (s.setChunks writes) := by
    refine keeps_append hcf hsane fun chunk hfound => Or.inl ?_
    exact List.mem_append_right _ (mem_of_lookup hfound)
  -- without collisions no write hides another one
  have hlook : ∀ w ∈ (flush keccak (.mk d₁ c₁)).2,
      (s.setChunks writes).lookup w.1 = some w.2 := by
    intro w hw
    obtain ⟨hkey, hlen⟩ := flush_writes _ w hw
    have hmem : ((keccak w.2).1, w.2) ∈ writes.reverse := by
      rw [← hkey, List.mem_reverse, hwrites]
      exact List.mem_append_left _ hw
    have hH := List.mem_append_left s hmem
    rw [Store.setChunks, List.lookup_append, hkey, hsane.lookup_chunk hcf hlen hmem (Or.inl hH)]
    rfl
  have hzero : ∀ chunk, (s.setChunks writes).lookup (keccak chunk).1 = some chunk →
      (keccak chunk).1 ≠ Bytes.zeros 32 := by
    intro chunk hfound hz
    exact hcf.ne_zero chunk (Or.inl (mem_of_lookup hfound)) (Subtype.ext hz)
  obtain ⟨ht, hfind⟩ := flush_kept hkeep hzero hterm₁ hback hlook
  rw [← hn'] at ht hfind
  refine ⟨ht, fun q => (hfind q).trans (hkept q), open_eq ?_ (lookup_merkleRoot hterm hflush)⟩
  obtain ⟨chunk, hhash, -⟩ := ht.hash
  rw [hhash]
  exact (keccak chunk).2

/-- A flush of one entry into an empty store. -/
theorem storedTree_single {t : Node} (hv : ReadableEntry (num k) ⟨v, sb, bn⟩)
    (hins : SparseMerkleTree.insert pcs k v sb bn SparseMerkleTree.new = .ok t)
    (hflush : SparseMerkleTree.flush keccak (Store.getChunk []) t = .ok (n', writes))
    (hcf : CollisionFree keccak (flushedStrings keccak (Store.setChunks [] writes) n')) :
    StoredTree keccak (Store.setChunks [] writes) (SparseMerkleTree.rootHash n')
      ∧ (Store.setChunks [] writes).lookup (SparseMerkleTree.merkleRoot n').1
        = some (SparseMerkleTree.rootHash n')
      ∧ ∀ q, (Store.setChunks [] writes).contents (SparseMerkleTree.rootHash n') q
        = if q = k then some ⟨v, sb, bn⟩ else none := by
  obtain ⟨d, c, hins', hterm, -, hback, hkept⟩ := insert_new keccak [] pcs
    (Store.getChunk []) (b := 1) (by decide) hv
  obtain rfl := Except.ok.inj (hins'.symm.trans hins)
  obtain ⟨ht, hcontents, -⟩ := flush_contents (lossy_getChunk []) hterm hback hflush hcf
  exact ⟨ht, lookup_merkleRoot hterm hflush, fun q => (hcontents q).trans (hkept q)⟩

end

end GoPlasma.Smt
