import GoPlasma.Smt.SharedStore
import GoPlasma.Smt.SoundnessTheorems

/-!
# How long proofs are

`generateProof` leaves a sibling out of the proof if it is the default hash of the height that it
would have beside the root node. Beside a node further down the siblings are lower, so none of them
is left out, empty or not. `proof_minimal_iff` says for which keys the proof is minimal all the
same: those whose terminal is a child of the root node, or that have a key below every sibling from
their terminal up to the root node.
-/

namespace GoPlasma.Smt

variable {keccak : Bytes → Hash}

/-! ## Where the path of a key ends -/

/-- How many key pieces are below the node at which the path of a key ends, as `Get` follows it. -/
def terminalHeight (pcs : Reader) : ℕ → Key → Node → ℕ
  | r, _, .nil => r
  | 0, _, .mk _ _ => 0
  | r + 1, k, .mk d c =>
    if d.terminal then r + 1
    else match load pcs d c with
      | .ok (_, c') => terminalHeight pcs r k (c' (keypiece k (nkeypieces - (r + 1))))
      | .error _ => r + 1

theorem terminalHeight_eq {R : ℕ → Prop} {B : Backing} {pcs : Reader}
    (hB : B.Serves keccak R pcs) (k : Key) {r : ℕ} (hr : r ≤ nkeypieces) {n : Node} {t : EntryTrie}
    (hn : Represents keccak R B r n t) :
    terminalHeight pcs r k n = Trie.leafHeight r (num k) t := by
  induction r generalizing n t with
  | zero =>
    rcases t with _ | ⟨k', e⟩ | ts
    · rw [represents_nil.mp hn]
      rfl
    · obtain ⟨d, rfl, -⟩ := represents_leaf.mp hn
      rfl
    · exact hn.elim
  | succ r ih =>
    rcases t with _ | ⟨k', e⟩ | ts
    · rw [represents_nil.mp hn]
      rfl
    · obtain ⟨d, rfl, hd, -⟩ := represents_leaf.mp hn
      rw [terminalHeight, if_pos hd.terminal, Trie.leafHeight_leaf]
    · obtain ⟨d, c, c', rfl, hload, hl⟩ := load_represents hB hn
      have hterm : ¬ d.terminal = true := by simpa using hl.terminal
      rw [terminalHeight, if_neg hterm, hload, Trie.leafHeight_branch, keypiece_eq_digit k hr]
      exact ih (by omega) (hl.children _)

/-! ## Minimal proofs -/

section
variable {m : Contents} {k : Key}

/-- Some key is below the sibling of `k` at height `i`. -/
def Contents.HasSibling (m : Contents) (k : Key) (i : ℕ) : Prop :=
  ∃ k', m k' ≠ none ∧ num k' / 2 ^ i = BinTree.sibling (num k / 2 ^ i)

variable (keccak) in
/-- Some key whose value is not `Keccak256()` is below the sibling of `k` at height `i`. -/
def Contents.HasValue (m : Contents) (k : Key) (i : ℕ) : Prop :=
  ∃ k' e, m k' = some e ∧ e.value ≠ (keccak []).1
    ∧ num k' / 2 ^ i = BinTree.sibling (num k / 2 ^ i)

theorem Contents.HasValue.hasSibling {i : ℕ} (h : m.HasValue keccak k i) : m.HasSibling k i := by
  obtain ⟨k', e, hk', -, hq⟩ := h
  exact ⟨k', by rw [hk']; exact Option.some_ne_none e, hq⟩

theorem hasValue_iff {i : ℕ} (hi : i < treeDepth) : m.HasValue keccak k i ↔
    ¬ ∀ q, q / 2 ^ i = BinTree.sibling (num k / 2 ^ i) → m.leaf keccak q = (keccak []).1 := by
  constructor
  · rintro ⟨k', e, hk', hne, hq⟩ hall
    have hleaf := hall _ hq
    rw [Contents.leaf, keyOf_num, hk'] at hleaf
    exact hne hleaf
  · intro h
    rw [not_forall] at h
    obtain ⟨q, hq⟩ := h
    obtain ⟨hdiv, hleaf⟩ := Classical.not_imp.mp hq
    have hnum := num_keyOf (lt_of_sibling hi hdiv)
    rcases hk' : m (keyOf q) with _ | e
    · rw [Contents.leaf, hk'] at hleaf
      exact (hleaf rfl).elim
    · rw [Contents.leaf, hk'] at hleaf
      exact ⟨keyOf q, e, hk', hleaf, by rw [hnum]; exact hdiv⟩

/-- The proof has a bit and a hash for each sibling that has a key below it, and for no other. -/
structure Proof.Minimal (p : Proof) (m : Contents) (k : Key) : Prop where
  bits : ∀ i < treeDepth, p.proofBits.toNat.testBit i = true ↔ m.HasSibling k i
  hashes : p.proof.length = BinTree.setBelow p.proofBits.toNat treeDepth
  size : p.bytes.length = 8 + 32 * Set.ncard {i | i < treeDepth ∧ m.HasSibling k i}

variable (keccak) in
/-- Beside the root node, no sibling has `Keccak256()` as its only value; from height `4 * h` up to
the root node, every sibling has a key below it. -/
structure Contents.Beset (m : Contents) (k : Key) (h : ℕ) : Prop where
  top : ∀ i < treeDepth, treeDepth - bitsPerPiece ≤ i → m.HasSibling k i → m.HasValue keccak k i
  below : ∀ i < treeDepth - bitsPerPiece, 4 * h ≤ i → m.HasSibling k i

theorem Collects.length_proof {sib : ℕ → Bytes} {inc : ℕ → Bool} {p : Proof}
    (h : Collects sib inc treeDepth p) :
    p.proof.length = BinTree.setBelow p.proofBits.toNat treeDepth := by
  rw [h.hashes, List.length_map, BinTree.setBelow_eq_length]
  congr 1
  apply List.filter_congr
  intro i hi
  have hlt := List.mem_range.mp hi
  rw [h.bits i hlt, decide_eq_true hlt, Bool.true_and]

/-- Eight bytes for the bits, and the hashes. -/
theorem Collects.length_bytes {sib : ℕ → Bytes} {inc : ℕ → Bool} {p : Proof}
    (h : Collects sib inc treeDepth p) (hsib : ∀ i, inc i = true → (sib i).length = 32) :
    p.bytes.length = 8 + 32 * p.proof.length := by
  have hall : ∀ b ∈ p.proof, b.length = 32 := by
    intro b hb
    rw [h.hashes] at hb
    obtain ⟨i, hi, rfl⟩ := List.mem_map.mp hb
    exact hsib i (List.mem_filter.mp hi).2
  rw [Proof.bytes, List.length_append, List.length_flatten, List.map_congr_left hall,
    List.map_const', List.sum_replicate, smul_eq_mul, Nat.mul_comm]
  congr 1

/-- A proof with the right bits is minimal. -/
theorem Collects.minimal_iff {sib : ℕ → Bytes} {inc : ℕ → Bool} {p : Proof}
    (h : Collects sib inc treeDepth p) (hsib : ∀ i, inc i = true → (sib i).length = 32) :
    p.Minimal m k ↔ ∀ i < treeDepth, inc i = true ↔ m.HasSibling k i := by
  have hbit : ∀ i < treeDepth, p.proofBits.toNat.testBit i = inc i := by
    intro i hi
    rw [h.bits i hi, decide_eq_true hi, Bool.true_and]
  constructor
  · intro hmin i hi
    rw [← hbit i hi]
    exact hmin.bits i hi
  · intro hinc
    refine ⟨fun i hi => by rw [hbit i hi]; exact hinc i hi, h.length_proof, ?_⟩
    have hset : {i | i < treeDepth ∧ m.HasSibling k i}
        = (((List.range treeDepth).filter inc).toFinset : Set ℕ) := by
      ext i
      simp only [List.coe_toFinset, List.mem_filter, List.mem_range, Set.mem_ofPred_eq]
      exact and_congr_right fun hi => (hinc i hi).symm
    rw [h.length_bytes hsib, hset, Set.ncard_coe_finset,
      List.toFinset_card_of_nodup (List.nodup_range.filter _), h.hashes, List.length_map]

end

/-! ## Which siblings `generateProof` includes -/

section
variable {m : Contents} {k : Key} {ts : Fin 16 → EntryTrie}

/-- Below the terminal there is no other key. -/
theorem Holds.not_hasSibling (hm : Holds (.branch ts) m) (hk : m k ≠ none) {i : ℕ}
    (hi : i < 4 * Trie.leafHeight nkeypieces (num k) (.branch ts)) : ¬ m.HasSibling k i := by
  rintro ⟨k', hk', hq⟩
  have hdiv := BinTree.div_pow_of_sibling hq hi
  rw [pow_sixteen] at hdiv
  have hne : num k' ≠ num k := by
    intro heq
    rw [heq] at hq
    exact BinTree.sibling_ne _ hq.symm
  have hfind : Trie.find nkeypieces (num k) (.branch ts) ≠ none := by
    rwa [hm.find_eq]
  apply hk'
  rw [← hm.find_eq]
  exact Trie.find_of_leafHeight hfind hne hdiv

/-- Beside the root node the right default hash is compared; further down a default hash of a larger
height, which no sibling of a key that is there is equal to. -/
theorem Holds.included_iff (hm : Holds (.branch ts) m) (hs : Trie.Shallow nkeypieces (.branch ts))
    (hinj : Set.InjOn keccak (treeStrings keccak m)) (hk : m k ≠ none) {i : ℕ}
    (hi : i < treeDepth) :
    included keccak (m.leaf keccak) (num k) (Trie.leafHeight nkeypieces (num k) (.branch ts)) i
        = true ↔
      4 * Trie.leafHeight nkeypieces (num k) (.branch ts) ≤ i
        ∧ (treeDepth - bitsPerPiece ≤ i → m.HasValue keccak k i) := by
  rw [included, Bool.and_eq_true, decide_eq_true_eq, decide_eq_true_eq]
  refine and_congr_right fun _ => ?_
  unfold treeDepth bitsPerPiece at *
  by_cases htop : 64 - 4 ≤ i
  · rw [show 64 - 4 + i % 4 = i by omega, Ne, hm.siblingAt_eq_default_iff hs hinj k hi,
      ← hasValue_iff hi]
    exact ⟨fun h _ => h, fun h => h htop⟩
  · obtain ⟨e, he⟩ : ∃ e, 64 - 4 + i % 4 = i + (e + 1) := ⟨59 + i % 4 - i, by omega⟩
    rw [he]
    refine ⟨fun _ h => (htop h).elim, fun _ => hm.siblingAt_ne_default hs hinj hk ?_⟩
    rw [← he]
    unfold treeDepth
    omega

theorem Holds.included_iff_hasSibling (hm : Holds (.branch ts) m)
    (hs : Trie.Shallow nkeypieces (.branch ts)) (hinj : Set.InjOn keccak (treeStrings keccak m))
    (hk : m k ≠ none) :
    (∀ i < treeDepth, included keccak (m.leaf keccak) (num k)
        (Trie.leafHeight nkeypieces (num k) (.branch ts)) i = true ↔ m.HasSibling k i)
      ↔ m.Beset keccak k (Trie.leafHeight nkeypieces (num k) (.branch ts)) := by
  have hh : Trie.leafHeight nkeypieces (num k) (.branch ts) ≤ 15 :=
    Trie.leafHeight_le 15 (num k) (ts (Trie.digit 15 (num k)))
  constructor
  · intro h
    refine ⟨fun i hi htop hsib => ?_, fun i hi hbelow => ?_⟩
    · exact ((hm.included_iff hs hinj hk hi).mp ((h i hi).mpr hsib)).2 htop
    · have hlt : i < treeDepth := lt_of_lt_of_le hi (Nat.sub_le _ _)
      exact (h i hlt).mp ((hm.included_iff hs hinj hk hlt).mpr
        ⟨hbelow, fun htop => absurd hi (not_lt.mpr htop)⟩)
  · intro h i hi
    rw [hm.included_iff hs hinj hk hi]
    constructor
    · rintro ⟨hbelow, hval⟩
      by_cases htop : treeDepth - bitsPerPiece ≤ i
      · exact (hval htop).hasSibling
      · exact h.below i (not_le.mp htop) hbelow
    · intro hsib
      refine ⟨not_lt.mp fun hlt => hm.not_hasSibling hk hlt hsib, fun htop => h.top i hi htop hsib⟩

end

/-! ## Flushed trees -/

variable (keccak) in
/-- A flushed tree with its contents, and the store that it reads: the tree in memory, with any
store, or one that was opened at the flush at any later time. The contents of the latter are what
`Get` answers. -/
inductive FlushedRead : Reader → Node → Contents → Prop where
  | inMemory (cs : Reader) {t : Node} {m : Contents} (h : FlushedTree keccak t m) :
      FlushedRead cs t m
  | opened {ops : List Op} {w : World} {j : ℕ} {f : Flushed} {m : Contents} (via : Handle)
      (hrun : run keccak ops = .ok w) (hok : Meets keccak (StepOk keccak) ops)
      (hcf : CollisionFree keccak (hashedInputs keccak w (ideal ops)))
      (hf : w.flushed[j]? = some f)
      (hread : ∀ m', (ideal ops).Candidate keccak j via m' → m'.Readable)
      (hget : ∀ k, ∃ x t', SparseMerkleTree.get keccak w.store.getChunk k (via.open w.store f)
        = .ok (x, t') ∧ x.answer = answerOf (m k)) :
      FlushedRead w.store.getChunk (via.open w.store f) m

theorem answerOf_inj {x y : Option Entry} (h : answerOf x = answerOf y) : x = y := by
  rcases x with _ | ⟨v, sb, bn⟩
  · rcases y with _ | e
    · rfl
    · cases (Prod.mk.inj (Prod.mk.inj h).2).1
  · rcases y with _ | ⟨v', sb', bn'⟩
    · cases (Prod.mk.inj (Prod.mk.inj h).2).1
    · simp only [answerOf, Prod.mk.injEq, true_and] at h
      obtain ⟨rfl, rfl, rfl⟩ := h
      rfl

variable (keccak) in
/-- What the tree stands for, with the cached roots below the root node right. -/
structure Current (cs : Reader) (t : Node) (m : Contents) (R : ℕ → Prop) (B : Backing)
    (ts : Fin 16 → EntryTrie) : Prop where
  serves : B.Serves keccak R cs
  down : ∀ r, R (r + 1) → R r
  right : ∀ q < nkeypieces, R q
  represents : Represents keccak R B nkeypieces t (.branch ts)
  holds : Holds (.branch ts) m
  shallow : Trie.Shallow nkeypieces (.branch ts)

theorem FlushedTree.current {t : Node} {m : Contents} (h : FlushedTree keccak t m) (cs : Reader) :
    ∃ B ts, Current keccak cs t m Fresh B ts := by
  rcases h with ⟨calls, hcalls, hflush⟩ | ⟨hrun, hok, hcf, hf, hm⟩
  · obtain ⟨ts, hn, hm⟩ := inMemory_new.execAll hcalls
    rcases treeFlush_represents (Backing.memory_serves Stale _) hn with
      ⟨hsh, n₁, writes₁, hf₁, -, -, hacc⟩ | ⟨-, e, hf₁⟩
    · rw [hflush] at hf₁
      obtain ⟨rfl, -⟩ := Prod.mk.inj (Except.ok.inj hf₁)
      obtain ⟨-, hrep⟩ := hacc Backing.memory (Backing.memory_accepts writes₁)
      exact ⟨_, ts, Backing.allLoaded_serves _ _ cs, fun _ h => h, fun _ _ => trivial, hrep, hm,
        hsh⟩
    · rw [hflush] at hf₁
      cases hf₁
  · obtain ⟨m', hm', ts, ht⟩ := ListRel.getElem? (run_refines hrun hok hcf).flushed hf
    obtain rfl := Option.some.inj (hm.symm.trans hm')
    exact ⟨_, ts, Backing.allLoaded_serves _ _ cs, fun _ h => h, fun _ _ => trivial, ht.tree,
      ht.holds, ht.shallow⟩

/-- A flushed tree with a key in it. -/
theorem FlushedRead.current {cs : Reader} {t : Node} {m : Contents}
    (h : FlushedRead keccak cs t m) {k : Key} (hk : m k ≠ none) :
    ∃ R B ts, Current keccak cs t m R B ts := by
  rcases h with ⟨_, h⟩ | @⟨ops, w, j, f, _, via, hrun, hok, hcf, hf, hread, hget⟩
  · exact ⟨Fresh, h.current cs⟩
  · have href := run_refines hrun hok hcf
    obtain ⟨m', -, hopen⟩ := href.open hcf hf via hread
    -- the contents are those that the tree was opened with
    have heq : GetsAs keccak w.store.getChunk (via.open w.store f) m' → m = m' := by
      intro hgets
      ext k' : 1
      obtain ⟨x, t₁, hx, hxa⟩ := hget k'
      obtain ⟨y, t₂, hy, hya, -⟩ := hgets k'
      obtain ⟨rfl, -⟩ := Prod.mk.inj (Except.ok.inj (hx.symm.trans hy))
      exact answerOf_inj (hxa.symm.trans hya)
    rcases hopen with hopen | ⟨-, -, hopen, rfl⟩
    · obtain rfl := heq hopen.gets
      obtain ⟨ts, hrep, hholds, hsh⟩ := hopen
      exact ⟨FreshBelow, _, ts, Backing.store_serves _, fun _ hr => Nat.lt_of_succ_lt hr,
        fun _ hq => hq, hrep, hholds, hsh⟩
    · -- opened at the zero hash, the tree has no key
      rw [hopen] at heq
      rw [heq (gets_missing (href.sane.lookup_zero hcf))] at hk
      exact (hk rfl).elim

/-! ## The length of a proof -/

/-- The proof that `Get` returns for a key of a flushed tree is minimal exactly if the key is beset:
from its terminal up to the root node every sibling has a key below it. -/
theorem proof_minimal_iff {cs : Reader} {t : Node} {m : Contents} {k : Key} {e : Entry}
    (ht : FlushedRead keccak cs t m) (hinj : Set.InjOn keccak (treeStrings keccak m))
    (hk : m k = some e) :
    ∃ x t' p, SparseMerkleTree.get keccak cs k t = .ok (x, t') ∧ x.p = some p
      ∧ (p.Minimal m k ↔ m.Beset keccak k (terminalHeight cs nkeypieces k t)) := by
  have hne : m k ≠ none := by
    rw [hk]
    exact Option.some_ne_none e
  obtain ⟨R, B, ts, hcur⟩ := ht.current hne
  obtain ⟨x, t', p, hget, hp, hcol⟩ :=
    treeGet_collects hcur.serves hcur.down hcur.represents hcur.holds hk
  refine ⟨x, t', p, hget, hp, ?_⟩
  have hpos : 0 < Trie.leafHeight nkeypieces (num k) (.branch ts) := by
    apply Trie.leafHeight_pos hcur.shallow
    rwa [hcur.holds.find_eq]
  rw [terminalHeight_eq hcur.serves k le_rfl hcur.represents,
    ← hcur.holds.included_iff_hasSibling hcur.shallow hinj hne]
  refine (hcol hcur.right).minimal_iff fun i hi => ?_
  -- no terminal is at the bottom, so that all hashes are of pairs
  rw [included, Bool.and_eq_true, decide_eq_true_eq] at hi
  obtain ⟨i, rfl⟩ := Nat.exists_eq_succ_of_ne_zero (show i ≠ 0 by omega)
  exact length_hashPair _ _

/-- A new tree after some insertions and a flush. -/
def insertedTree (keccak : Bytes → Hash) (l : List (Key × Bytes)) : Go Node := do
  let (n, s) ← execAll keccak (l.map fun x => .insert x.1 x.2 0 0) [] SparseMerkleTree.new
  let (t, _) ← SparseMerkleTree.flush keccak s.getChunk n
  .ok t

theorem flushedTree_inserted {l : List (Key × Bytes)} {t : Node}
    (h : insertedTree keccak l = .ok t) : FlushedTree keccak t (Contents.empty.insertAll l) := by
  obtain ⟨⟨n, s⟩, hcalls, h⟩ := bind_eq_ok.mp h
  obtain ⟨⟨t₁, writes⟩, hflush, h⟩ := bind_eq_ok.mp h
  obtain rfl := Except.ok.inj h
  have hafter : Contents.after (l.map fun x => .insert x.1 x.2 0 0) Contents.empty
      = Contents.empty.insertAll l := List.foldl_map
  exact hafter ▸ FlushedTree.fresh _ hcalls hflush

variable (keccak) in
/-- The strings of a tree with few keys. -/
def treeStringList (l : List (Key × Bytes)) : List Bytes :=
  [] :: ((List.range treeDepth).map fun h => defaultHashes keccak h ++ defaultHashes keccak h)
    ++ pairStrings keccak l

theorem treeStrings_insertAll {l : List (Key × Bytes)} (hl : (l.map Prod.fst).Nodup) :
    treeStrings keccak (Contents.empty.insertAll l) ⊆ {b | b ∈ treeStringList keccak l} := by
  have hempty : ∀ d ≤ treeDepth, ∀ b ∈ hashedPairs keccak Contents.empty d,
      b ∈ treeStringList keccak l := by
    rintro d hd b ⟨_, ⟨h, p, hh, rfl⟩, rfl⟩
    rw [root_empty, root_empty]
    refine List.mem_append_left _ (List.mem_cons_of_mem _ (List.mem_map.mpr ⟨h, ?_, rfl⟩))
    exact List.mem_range.mpr (lt_of_lt_of_le hh hd)
  rintro b (rfl | hb | hb)
  · exact List.mem_append_left _ List.mem_cons_self
  · exact hempty _ (Nat.sub_le _ _) b hb
  · rcases hashedPairs_insertAll hl hb with hb | hb
    · exact List.mem_append_right _ hb
    · exact hempty _ le_rfl b hb

/-- Two keys that differ in the first piece. -/
def apart : List (Key × Bytes) :=
  [(keyOf (2 ^ 63), (toyHash 70).1), (keyOf (2 ^ 63 + 2 ^ 60), (toyHash 140).1)]

/-- Two keys that differ in the second piece. -/
def together : List (Key × Bytes) :=
  [(keyOf (2 ^ 63), (toyHash 70).1), (keyOf (2 ^ 63 + 2 ^ 56), (toyHash 140).1)]

theorem proof_minimal_apart : ∃ t x t' p, insertedTree toyKeccak apart = .ok t
    ∧ SparseMerkleTree.get toyKeccak (Store.getChunk []) (keyOf (2 ^ 63)) t = .ok (x, t')
    ∧ x.p = some p ∧ p.Minimal (Contents.empty.insertAll apart) (keyOf (2 ^ 63)) := by
  have hrun : (insertedTree toyKeccak apart).toOption.map
      (terminalHeight (Store.getChunk []) nkeypieces (keyOf (2 ^ 63))) = some 15 := by
    decide +kernel
  obtain ⟨t, ht, hheight⟩ := toOption_map_eq_some.mp hrun
  have hinj : Set.InjOn toyKeccak (treeStrings toyKeccak (Contents.empty.insertAll apart)) := by
    refine (CollisionFree.of_distinct (m := 257) ?_).inj.mono (treeStrings_insertAll (by decide))
    decide +kernel
  obtain ⟨x, t', p, hget, hp, hiff⟩ := proof_minimal_iff (k := keyOf (2 ^ 63))
    (.inMemory (Store.getChunk []) (flushedTree_inserted ht)) hinj rfl
  refine ⟨t, x, t', p, ht, hget, hp, hiff.mpr ?_⟩
  rw [hheight]
  refine ⟨fun i hi _ ⟨k', hk', hq⟩ => ?_, fun i hi hbelow => ?_⟩
  · obtain ⟨e, he⟩ := Option.ne_none_iff_exists'.mp hk'
    refine ⟨k', e, he, ?_, hq⟩
    exact Contents.insertAll_forall (P := fun _ v => v ≠ (toyKeccak []).1)
      (fun k e hk => by cases hk) (by decide) k' e he
  · exact absurd hbelow (not_le.mpr hi)

/-- Where two keys differ only in the second piece, the proof of one has three hashes of empty
subtrees. -/
theorem proof_together_not_minimal : ∃ t x t' p, insertedTree toyKeccak together = .ok t
    ∧ FlushedTree toyKeccak t (Contents.empty.insertAll together)
    ∧ Set.InjOn toyKeccak (treeStrings toyKeccak (Contents.empty.insertAll together))
    ∧ SparseMerkleTree.get toyKeccak (Store.getChunk []) (keyOf (2 ^ 63)) t = .ok (x, t')
    ∧ x.p = some p ∧ p.proofBits = 0x0F00000000000000
    ∧ (∀ i ∈ [57, 58, 59], ¬ (Contents.empty.insertAll together).HasSibling (keyOf (2 ^ 63)) i)
    ∧ ¬ p.Minimal (Contents.empty.insertAll together) (keyOf (2 ^ 63)) := by
  have hrun : (insertedTree toyKeccak together >>= fun t =>
      SparseMerkleTree.get toyKeccak (Store.getChunk []) (keyOf (2 ^ 63)) t).toOption.map
        (fun r => r.1.p.map Proof.proofBits) = some (some 0x0F00000000000000) := by
    decide +kernel
  obtain ⟨⟨x, t'⟩, hrun, hbits⟩ := toOption_map_eq_some.mp hrun
  obtain ⟨t, ht, hget⟩ := bind_eq_ok.mp hrun
  obtain ⟨p, hp, hbits⟩ := Option.map_eq_some_iff.mp hbits
  have hinj : Set.InjOn toyKeccak (treeStrings toyKeccak (Contents.empty.insertAll together)) := by
    refine (CollisionFree.of_distinct (m := 257) ?_).inj.mono (treeStrings_insertAll (by decide))
    decide +kernel
  -- none of the keys is in the subtrees beside the way at these heights
  have hnone : ∀ i ∈ [57, 58, 59],
      ¬ (Contents.empty.insertAll together).HasSibling (keyOf (2 ^ 63)) i := by
    rintro i hi ⟨k', hk', hq⟩
    obtain ⟨e, he⟩ := Option.ne_none_iff_exists'.mp hk'
    have hall := Contents.insertAll_forall (l := together) (m := Contents.empty)
      (P := fun k _ => ∀ i ∈ [57, 58, 59],
        num k / 2 ^ i ≠ BinTree.sibling (num (keyOf (2 ^ 63)) / 2 ^ i))
      (fun k e hk => by cases hk) (by decide +kernel) k' e he
    exact hall i hi hq
  refine ⟨t, x, t', p, ht, flushedTree_inserted ht, hinj, hget, hp, hbits, hnone, ?_⟩
  intro hmin
  refine hnone 57 (by decide) ((hmin.bits 57 (by decide)).mp ?_)
  rw [hbits]
  decide

end GoPlasma.Smt
