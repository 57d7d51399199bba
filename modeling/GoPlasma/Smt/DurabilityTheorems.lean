import GoPlasma.Smt.RunTheorems
import GoPlasma.Smt.SiblingTheorems

/-!
# Durability and proofs

What a caller sees of a flush that is opened again later, in any run whose steps meet `StepOk`:

* `Get` answers as it did on the tree in memory right after the flush (`reopened_get`);
* a key that was deleted before the flush is gone and every other key is there
  (`delete_durable`);
* the proof that comes with a value checks against the Merkle root that the flush reported
  (`found_proof_checks`).

Each comes with a run that does not meet the condition and in which it fails. These runs, and the
ones that show the conditions to be met by some run, use `toyKeccak`, which has no collisions on
the few strings that they hash.
-/

namespace GoPlasma.Smt

variable {keccak : Bytes → Hash}

/-! ## What one tree answers -/

variable (keccak) in
/-- `Get` of every key answers as the contents say, with a proof that checks where no sibling is
mistaken for an empty one. -/
def GetsAs (cs : Reader) (n : Node) (m : Contents) : Prop :=
  ∀ k, ∃ res n', SparseMerkleTree.get keccak cs k n = .ok (res, n')
    ∧ res.answer = answerOf (m k) ∧ res.err = none
    ∧ (NoFalseDefault keccak (m.leaf keccak) (num k) → ∀ p, res.p = some p →
        p.check keccak res.v0 (m.root keccak) = .ok true)

variable (keccak) in
/-- `Flush` returns, and reports the root of the contents. -/
def FlushesAs (cs : Reader) (n : Node) (m : Contents) : Prop :=
  ∃ n' writes, SparseMerkleTree.flush keccak cs n = .ok (n', writes)
    ∧ SparseMerkleTree.rootMerkle n' = m.root keccak

/-- A tree that is all in memory asks nothing of the store. -/
theorem Backing.allLoaded_serves (B : Backing) (R : ℕ → Prop) (cs : Reader) :
    B.allLoaded.Serves keccak R cs :=
  ⟨fun _ _ _ hu => hu.elim, fun _ _ _ hu => hu.elim⟩

/-- A tree right after its flush. All of it is in memory, so any store will do. -/
theorem FlushedOf.gets {s : Store} {f : Flushed} {m : Contents} (h : FlushedOf keccak s f m)
    (cs : Reader) : GetsAs keccak cs f.tree m := by
  obtain ⟨ts, ht⟩ := h
  intro k
  obtain ⟨res, n', hget, -, hans, herr, hproof⟩ :=
    treeGet_represents (Backing.allLoaded_serves _ Fresh cs) (fun _ _ => trivial) ht.tree ht.holds k
  exact ⟨res, n', hget, hans, herr, hproof fun _ _ => trivial⟩

/-- A tree that was opened from storage. -/
theorem OpenedAs.gets {s : Store} {n : Node} {m : Contents} (h : OpenedAs keccak s n m) :
    GetsAs keccak s.getChunk n m := by
  obtain ⟨ts, hn, hm, -⟩ := h
  have hdown : ∀ r, FreshBelow (r + 1) → FreshBelow r := fun _ hr => Nat.lt_of_succ_lt hr
  intro k
  obtain ⟨res, n', hget, -, hans, herr, hproof⟩ :=
    treeGet_represents (Backing.store_serves s) hdown hn hm k
  exact ⟨res, n', hget, hans, herr, hproof fun _ hq => hq⟩

theorem OpenedAs.flushes {s : Store} {n : Node} {m : Contents} (h : OpenedAs keccak s n m) :
    FlushesAs keccak s.getChunk n m := by
  obtain ⟨ts, hn, hm, hsh⟩ := h
  rcases treeFlush_represents (Backing.store_serves s) hn with
    ⟨-, n', writes, hf, hroot, -⟩ | ⟨hdeep, -⟩
  · exact ⟨n', _, hf, hroot.trans hm.root_eq⟩
  · exact (hdeep hsh).elim

theorem load_missing {s : Store} (hs : s.lookup (Bytes.zeros 32) = none) {d : NodeData}
    (hd : d.chunkHash = Bytes.zeros 32) (c : Fin 16 → Node) : load s.getChunk d c = .ok (d, c) := by
  rw [load, Store.getChunk, hd, hs]
  split
  · rfl
  · rfl

/-- A tree whose chunk is not in the store answers that nothing is there. -/
theorem gets_missing {s : Store} (hs : s.lookup (Bytes.zeros 32) = none) :
    GetsAs keccak s.getChunk (setHash (Bytes.zeros 32) SparseMerkleTree.new) Contents.empty := by
  intro k
  refine ⟨⟨[], false, none, 0, 0, none⟩, setHash (Bytes.zeros 32) SparseMerkleTree.new, ?_, rfl,
    rfl, fun _ p hp => by cases hp⟩
  have hget : Smt.get s.getChunk nkeypieces k (setHash (Bytes.zeros 32) SparseMerkleTree.new)
      = .ok (none, setHash (Bytes.zeros 32) SparseMerkleTree.new) := by
    unfold nkeypieces SparseMerkleTree.new newNode setHash
    rw [Smt.get, load_missing hs rfl]
    rfl
  unfold SparseMerkleTree.get
  simp only [hget, bind, Except.bind]

/-- Its `Flush` reports the root of the empty tree. -/
theorem flushes_missing {s : Store} (hs : s.lookup (Bytes.zeros 32) = none) :
    FlushesAs keccak s.getChunk (setHash (Bytes.zeros 32) SparseMerkleTree.new) Contents.empty := by
  have hchildren : collect (fun i => onChild (computeMerkleRoot keccak s.getChunk nkeypieces)
      ((fun _ => Node.nil : Fin 16 → Node) i)) = .ok fun _ => .nil := collect_eq_ok.mpr fun _ => rfl
  have hroot : computeMerkleRootCache keccak (treeDepth - 1) (fun _ => .nil)
      = .ok (Contents.empty.root keccak) := by
    rw [← (holds_empty).root_eq]
    rfl
  unfold FlushesAs SparseMerkleTree.flush SparseMerkleTree.new newNode setHash
  rw [computeMerkleRoot, load_missing hs rfl]
  simp only [newData, bind, Except.bind, hchildren, hroot]
  exact ⟨_, _, rfl, rfl⟩

/-- Opening a flush gives a tree that answers as one of the candidates. -/
theorem Refines.reopened {w : World} {a : Ideal} (h : Refines keccak w a)
    (hcf : CollisionFree keccak (hashedInputs keccak w a)) {j : ℕ} {f : Flushed}
    (hf : w.flushed[j]? = some f) (via : Handle)
    (hread : ∀ m', a.Candidate keccak j via m' → m'.Readable) :
    ∃ m', a.Candidate keccak j via m' ∧ GetsAs keccak w.store.getChunk (via.open w.store f) m'
      ∧ FlushesAs keccak w.store.getChunk (via.open w.store f) m' := by
  obtain ⟨m', hc, hopen | ⟨-, -, hopen, rfl⟩⟩ := h.open hcf hf via hread
  · exact ⟨m', hc, hopen.gets, hopen.flushes⟩
  · have hzero := h.sane.lookup_zero hcf
    refine ⟨_, hc, ?_, ?_⟩
    · rw [hopen]
      exact gets_missing hzero
    · rw [hopen]
      exact flushes_missing hzero

/-! ## Siblings that are left out of a proof -/

/-- After a flush that returned, no sibling of a key that is there is left out by mistake. -/
theorem FlushedTrie.noFalseDefault {w : World} {a : Ideal} {s : Store} {f : Flushed} {m : Contents}
    {ts : Fin 16 → EntryTrie} (h : FlushedTrie keccak s f m ts)
    (hcf : CollisionFree keccak (hashedInputs keccak w a)) (hm : m ∈ a.flushed)
    {k : Key} (hk : m k ≠ none) : NoFalseDefault keccak (m.leaf keccak) (num k) := by
  have hinj : Set.InjOn keccak (treeStrings keccak m) := hcf.inj.mono (treeStrings_subset hm)
  intro r hr j hj hsib
  unfold nkeypieces at hr
  by_cases hr15 : r = 15
  · rw [hsib, hr15]
    rfl
  · -- the sibling would be a default hash of a height above its own
    obtain ⟨e, he⟩ : ∃ e, treeDepth - bitsPerPiece + j = 4 * r + j + (e + 1) := by
      refine ⟨59 - 4 * r, ?_⟩
      unfold treeDepth bitsPerPiece
      omega
    rw [he] at hsib
    refine (h.holds.siblingAt_ne_default h.shallow hinj hk ?_ hsib).elim
    rw [← he]
    unfold treeDepth bitsPerPiece
    omega

/-! ## A hash for small runs

`toyKeccak` has no collisions on the strings hashed for trees with one key or two. -/

/-- A hash with one nonzero byte. -/
def toyHash (n : ℕ) : Hash := ⟨Bytes.zeros 31 ++ [UInt8.ofNat n], rfl⟩

/-- What a half of a pair counts for. -/
def toyRank (x : ℕ) : ℕ := if x = 0 then 140 else x

/-- One more than the larger half of a pair; fixed numbers for the empty string, for a node chunk
and for anything else. -/
def toyNumber (b : Bytes) : ℕ :=
  if b.length = 64 then 1 + max (toyRank (b.getD 31 0).toNat) (toyRank (b.getD 63 0).toNat)
  else if b = [] then 1
  else if b.length = chunkSize then 250
  else 251

def toyKeccak (b : Bytes) : Hash := toyHash (toyNumber b)

theorem toyHash_inj {x y : ℕ} (hx : x < 256) (hy : y < 256) (h : toyHash x = toyHash y) :
    x = y := by
  have hbyte : UInt8.ofNat x = UInt8.ofNat y := by
    have := List.append_cancel_left (congrArg Subtype.val h)
    simpa using this
  have hnat := congrArg UInt8.toNat hbyte
  rw [UInt8.toNat_ofNat', UInt8.toNat_ofNat'] at hnat
  omega

/-- The pair of two such hashes. -/
theorem toyNumber_pair {x y : ℕ} (hx : x < 256) (hy : y < 256) :
    toyNumber ((toyHash x).1 ++ (toyHash y).1) = 1 + max (toyRank x) (toyRank y) := by
  have hbyte : ∀ z < 256, (UInt8.ofNat z).toNat = z := by
    intro z hz
    rw [UInt8.toNat_ofNat']
    omega
  rw [← hbyte x hx, ← hbyte y hy]
  simp [toyNumber, toyHash, Bytes.zeros]

/-- The hash on the path of a key whose value is `toyHash x`. -/
def toyOnPath (x h : ℕ) : ℕ := if h = 0 then x else toyRank x + h

/-- Contents with one key, whose value is `toyHash x`. -/
def Contents.single (k : Key) (x : ℕ) : Contents :=
  Function.update Contents.empty k (some ⟨(toyHash x).1, 0, 0⟩)

theorem keyOf_eq_iff (q : ℕ) (k : Key) : keyOf q = k ↔ q % 2 ^ 64 = num k := by
  have hnum : num (keyOf q) = q % 2 ^ 64 := Bytes.ofBE_toBE 8 q
  rw [← hnum]
  exact ⟨fun h => by rw [h], num_inj⟩

/-- The string hashed for a pair. -/
def toyPair (x y : ℕ) : Bytes := (toyHash x).1 ++ (toyHash y).1

/-- The pair at height `h` on the path of a key. -/
def toyPathPair (k : Key) (x h : ℕ) : Bytes :=
  if num k / 2 ^ h % 2 = 0 then toyPair (toyOnPath x h) (1 + h) else toyPair (1 + h) (toyOnPath x h)

theorem toyNumber_emptyPair {h : ℕ} (hh : h < 64) :
    toyNumber (toyPair (1 + h) (1 + h)) = 2 + h := by
  rw [toyPair, toyNumber_pair (by omega) (by omega), toyRank, if_neg (by omega)]
  omega

theorem toyNumber_pathPair (k : Key) {x : ℕ} (hx : x = 0 ∨ x = 70) {h : ℕ} (hh : h < 64) :
    toyNumber (toyPathPair k x h) = toyRank x + h + 1 := by
  have hrank : toyRank (toyOnPath x h) = toyRank x + h ∧ toyOnPath x h < 256 ∧ 70 ≤ toyRank x := by
    unfold toyOnPath toyRank
    rcases hx with rfl | rfl
    · split_ifs <;> omega
    · split_ifs <;> omega
  have hrank' : toyRank (1 + h) = 1 + h := by
    rw [toyRank, if_neg (by omega)]
  unfold toyPathPair toyPair
  split
  · rw [toyNumber_pair hrank.2.1 (by omega), hrank.1, hrank']
    omega
  · rw [toyNumber_pair (by omega) hrank.2.1, hrank.1, hrank']
    omega

theorem defaultHashes_toy {h : ℕ} (hh : h ≤ 64) :
    defaultHashes toyKeccak h = (toyHash (1 + h)).1 := by
  induction h with
  | zero => rfl
  | succ h ih =>
    rw [defaultHashes, ih (by omega), hashPair, toyKeccak, ← toyPair,
      toyNumber_emptyPair (by omega)]
    congr 2
    omega

/-- The root over one key at height `h` and position `p`. -/
def toyRoot (k : Key) (x h p : ℕ) : ℕ :=
  if p % 2 ^ (64 - h) = num k / 2 ^ h then toyOnPath x h else 1 + h

/-- A pair of subtrees over one key is empty or on the path. -/
theorem toyPair_root (k : Key) (x : ℕ) {h : ℕ} (hh : h < 64) (p : ℕ) :
    toyPair (toyRoot k x h (2 * p)) (toyRoot k x h (2 * p + 1))
      = if p % 2 ^ (64 - (h + 1)) = num k / 2 ^ (h + 1) then toyPathPair k x h
        else toyPair (1 + h) (1 + h) := by
  have hleft := BinTree.onPath_child (n := num k) (p := p) (c := 0) hh (by omega)
  have hright := BinTree.onPath_child (n := num k) (p := p) (c := 1) hh (by omega)
  rw [Nat.add_zero] at hleft
  unfold toyRoot toyPathPair
  simp only [hleft, hright]
  by_cases hp : p % 2 ^ (64 - (h + 1)) = num k / 2 ^ (h + 1)
  · simp only [hp, true_and, if_true]
    rcases Nat.mod_two_eq_zero_or_one (num k / 2 ^ h) with hb | hb
    · simp [hb]
    · simp [hb]
  · simp only [hp, false_and, if_false]

/-- The roots over one key. -/
theorem root_single (k : Key) {x : ℕ} (hx : x = 0 ∨ x = 70) {h : ℕ} (hh : h ≤ 64) (p : ℕ) :
    BinTree.root (hashPair toyKeccak) ((Contents.single k x).leaf toyKeccak) h p
      = (toyHash (toyRoot k x h p)).1 := by
  induction h generalizing p with
  | zero =>
    rw [BinTree.root_zero, Contents.leaf, Contents.single, Function.update_apply, toyRoot]
    simp only [keyOf_eq_iff, Nat.sub_zero, pow_zero, Nat.div_one]
    split_ifs
    · rfl
    · rfl
  | succ h ih =>
    have hpair := toyPair_root k x (h := h) (by omega) p
    rw [BinTree.root_succ, ih (by omega), ih (by omega), hashPair, ← toyPair, hpair,
      toyKeccak, toyRoot]
    split_ifs
    · rw [toyNumber_pathPair k hx (by omega)]
      rfl
    · rw [toyNumber_emptyPair (by omega)]
      congr 2
      omega

/-- The pairs over one key. -/
theorem pair_single (k : Key) {x : ℕ} (hx : x = 0 ∨ x = 70) {h : ℕ} (hh : h < 64) (p : ℕ) :
    BinTree.root (hashPair toyKeccak) ((Contents.single k x).leaf toyKeccak) h (2 * p)
        ++ BinTree.root (hashPair toyKeccak) ((Contents.single k x).leaf toyKeccak) h (2 * p + 1)
      ∈ ({toyPathPair k x h, toyPair (1 + h) (1 + h)} : Set Bytes) := by
  rw [root_single k hx hh.le, root_single k hx hh.le, ← toyPair, toyPair_root k x hh]
  split_ifs
  · exact Or.inl rfl
  · exact Or.inr rfl

/-- Contents with two keys, of which the second has the all-zero value. -/
def Contents.two (k₁ k₂ : Key) : Contents :=
  Function.update (Contents.single k₁ 70) k₂ (some ⟨Bytes.zeros 32, 0, 0⟩)

/-- Where the keys are in different halves, the tree is put together from two trees with one key. -/
theorem root_two {k₁ k₂ : Key} (h₁ : 2 ^ 63 ≤ num k₁) (h₂ : num k₂ < 2 ^ 63) {h : ℕ} (hh : h ≤ 63)
    (p : ℕ) : BinTree.root (hashPair toyKeccak) ((Contents.two k₁ k₂).leaf toyKeccak) h p
      = BinTree.root (hashPair toyKeccak)
          (if p / 2 ^ (63 - h) % 2 = 1 then (Contents.single k₁ 70).leaf toyKeccak
            else (Contents.single k₂ 0).leaf toyKeccak) h p := by
  apply BinTree.root_congr
  intro q hq
  -- all leaves below one subtree are in the same half
  have hhalf : q / 2 ^ 63 = p / 2 ^ (63 - h) := by
    rw [← hq, Nat.div_div_eq_div_mul, ← pow_add]
    congr 2
    omega
  rw [← hhalf]
  have hne : k₁ ≠ k₂ := by
    rintro rfl
    omega
  by_cases hup : q / 2 ^ 63 % 2 = 1
  · have hk : keyOf q ≠ k₂ := by
      rw [Ne, keyOf_eq_iff]
      omega
    rw [if_pos hup, Contents.leaf, Contents.two, Function.update_of_ne hk, Contents.leaf]
  · have hk : keyOf q ≠ k₁ := by
      rw [Ne, keyOf_eq_iff]
      have := num_lt k₁
      omega
    rw [if_neg hup, Contents.leaf, Contents.leaf, Contents.two, Contents.single, Contents.single]
    by_cases hk₂ : keyOf q = k₂
    · rw [hk₂, Function.update_self, Function.update_self]
      rfl
    · rw [Function.update_of_ne hk₂, Function.update_of_ne hk, Function.update_of_ne hk₂]

/-- The string that has a given number. -/
def toyString (k₁ k₂ : Key) (chunk : Bytes) (n : ℕ) : Bytes :=
  if n = 1 then []
  else if n < 70 then toyPair (n - 1) (n - 1)
  else if n < 140 then toyPathPair k₁ 70 (n - 71)
  else if n < 204 then toyPathPair k₂ 0 (n - 141)
  else if n = 204 then toyPair 203 133
  else chunk

/-- The number of a string determines it. -/
def ToyCoded (k₁ k₂ : Key) (chunk b : Bytes) : Prop :=
  0 < toyNumber b ∧ toyNumber b < 256 ∧ toyString k₁ k₂ chunk (toyNumber b) = b

section
variable {k₁ k₂ : Key} {chunk : Bytes}

theorem toyCoded_pair {h : ℕ} (hh : h < 64) : ToyCoded k₁ k₂ chunk (toyPair (1 + h) (1 + h)) := by
  rw [ToyCoded, toyNumber_emptyPair hh, toyString, if_neg (by omega), if_pos (by omega),
    show 2 + h - 1 = 1 + h by omega]
  exact ⟨by omega, by omega, rfl⟩

theorem toyCoded_path₁ {h : ℕ} (hh : h < 64) : ToyCoded k₁ k₂ chunk (toyPathPair k₁ 70 h) := by
  have hn : toyNumber (toyPathPair k₁ 70 h) = 71 + h := by
    rw [toyNumber_pathPair k₁ (Or.inr rfl) hh, toyRank, if_neg (by omega)]
    omega
  rw [ToyCoded, hn, toyString, if_neg (by omega), if_neg (by omega), if_pos (by omega)]
  refine ⟨by omega, by omega, ?_⟩
  rw [Nat.add_sub_cancel_left]

theorem toyCoded_path₂ {h : ℕ} (hh : h < 63) : ToyCoded k₁ k₂ chunk (toyPathPair k₂ 0 h) := by
  have hn : toyNumber (toyPathPair k₂ 0 h) = 141 + h := by
    rw [toyNumber_pathPair k₂ (Or.inl rfl) (by omega), toyRank, if_pos rfl]
    omega
  rw [ToyCoded, hn, toyString, if_neg (by omega), if_neg (by omega), if_neg (by omega),
    if_pos (by omega)]
  refine ⟨by omega, by omega, ?_⟩
  rw [Nat.add_sub_cancel_left]

/-- The strings that trees with these keys hash. -/
theorem toyCoded_of_mem_single {h p : ℕ} (hh : h < 64) :
    ToyCoded k₁ k₂ chunk
      (BinTree.root (hashPair toyKeccak) ((Contents.single k₁ 70).leaf toyKeccak) h (2 * p)
        ++ BinTree.root (hashPair toyKeccak) ((Contents.single k₁ 70).leaf toyKeccak) h
          (2 * p + 1)) := by
  rcases pair_single k₁ (Or.inr rfl) hh p with hpair | hpair
  · rw [hpair]
    exact toyCoded_path₁ hh
  · rw [hpair]
    exact toyCoded_pair hh

theorem toyCoded_of_mem_two (h₁ : 2 ^ 63 ≤ num k₁) (h₂ : num k₂ < 2 ^ 63) {h p : ℕ} (hh : h < 64) :
    ToyCoded k₁ k₂ chunk
      (BinTree.root (hashPair toyKeccak) ((Contents.two k₁ k₂).leaf toyKeccak) h (2 * p)
        ++ BinTree.root (hashPair toyKeccak) ((Contents.two k₁ k₂).leaf toyKeccak) h
          (2 * p + 1)) := by
  rw [root_two h₁ h₂ (by omega), root_two h₁ h₂ (by omega)]
  -- the keys differ in the highest bit, so the ways only meet at the root
  by_cases htop : h = 63
  · subst htop
    have hk₁ : num k₁ / 2 ^ 63 = 1 := by
      have := num_lt k₁
      omega
    have hk₂ : num k₂ / 2 ^ 63 = 0 := Nat.div_eq_of_lt h₂
    have hleft : ¬ 2 * p / 2 ^ (63 - 63) % 2 = 1 := by
      simp
    have hright : (2 * p + 1) / 2 ^ (63 - 63) % 2 = 1 := by
      rw [Nat.sub_self, pow_zero, Nat.div_one]
      omega
    rw [if_neg hleft, if_pos hright, root_single k₂ (Or.inl rfl) (by omega),
      root_single k₁ (Or.inr rfl) (by omega), toyRoot, toyRoot, hk₁, hk₂, if_pos (by simp),
      if_pos (by simp [Nat.add_mod])]
    exact ⟨by decide, by decide, rfl⟩
  · have hsame : ∀ c < 2, (2 * p + c) / 2 ^ (63 - h) = p / 2 ^ (62 - h) := by
      intro c hc
      rw [show 63 - h = 1 + (62 - h) by omega, pow_add, pow_one, ← Nat.div_div_eq_div_mul]
      congr 1
      omega
    have hleft := hsame 0 (by omega)
    rw [Nat.add_zero] at hleft
    rw [hleft, hsame 1 (by omega)]
    split_ifs
    · exact toyCoded_of_mem_single hh
    · rcases pair_single k₂ (Or.inl rfl) hh p with hpair | hpair
      · rw [hpair]
        exact toyCoded_path₂ (by omega)
      · rw [hpair]
        exact toyCoded_pair hh

/-- No collisions in a run that wrote one node chunk and flushed nothing but trees with these
keys. -/
theorem toyKeccak_collisionFree {w : World} {a : Ideal} (k₁ k₂ : Key)
    (hlen : chunk.length = chunkSize)
    (hstore : ∀ b, ((toyKeccak b).1, b) ∈ w.store → b = chunk)
    (hflushed : ∀ m ∈ a.flushed, m = Contents.empty ∨ m = Contents.single k₁ 70
      ∨ (m = Contents.two k₁ k₂ ∧ 2 ^ 63 ≤ num k₁ ∧ num k₂ < 2 ^ 63)) :
    CollisionFree toyKeccak (hashedInputs toyKeccak w a) := by
  have hempty : ∀ d ≤ 64, ∀ b ∈ hashedPairs toyKeccak Contents.empty d, ToyCoded k₁ k₂ chunk b := by
    rintro d hd b ⟨_, ⟨h, p, hh, rfl⟩, rfl⟩
    rw [root_empty, root_empty, defaultHashes_toy (by omega), ← toyPair]
    exact toyCoded_pair (by omega)
  -- a string can be read off the number that stands for its hash
  have hcoded : ∀ b ∈ hashedInputs toyKeccak w a, ToyCoded k₁ k₂ chunk b := by
    rintro b (rfl | hb | hb | ⟨m, hm, hb⟩)
    · exact ⟨by decide, by decide, rfl⟩
    · rw [hstore b hb]
      have hn : toyNumber chunk = 250 := by
        have hne : chunk ≠ [] := by
          rintro rfl
          cases hlen
        rw [toyNumber, hlen, if_neg (by decide), if_neg hne, if_pos rfl]
      rw [ToyCoded, hn]
      exact ⟨by decide, by decide, rfl⟩
    · exact hempty _ (by decide) b hb
    · rcases hflushed m hm with rfl | rfl | ⟨rfl, h₁, h₂⟩
      · exact hempty _ (by decide) b hb
      · obtain ⟨_, ⟨h, p, hh, rfl⟩, rfl⟩ := hb
        exact toyCoded_of_mem_single hh
      · obtain ⟨_, ⟨h, p, hh, rfl⟩, rfl⟩ := hb
        exact toyCoded_of_mem_two h₁ h₂ hh
  refine ⟨?_, ?_⟩
  · intro b hb b' hb' heq
    obtain ⟨-, hlt, hs⟩ := hcoded b hb
    obtain ⟨-, hlt', hs'⟩ := hcoded b' hb'
    rw [← hs, ← hs', toyHash_inj hlt hlt' heq]
  · intro b hb heq
    obtain ⟨hpos, hlt, -⟩ := hcoded b hb
    have hzero : toyNumber b = 0 := toyHash_inj hlt (by omega) heq
    omega

/-- The store has one node chunk. -/
def Store.oneChunk (s : Store) : Bool :=
  s.any fun c => decide (c.2.length = chunkSize)
    && s.all fun x => decide (x.1 ≠ (toyKeccak x.2).1) || List.beq x.2 c.2

theorem Store.oneChunk_spec {s : Store} (h : s.oneChunk = true) : ∃ chunk : Bytes,
    chunk.length = chunkSize ∧ ∀ b, ((toyKeccak b).1, b) ∈ s → b = chunk := by
  obtain ⟨c, -, hc⟩ := List.any_eq_true.mp h
  rw [Bool.and_eq_true, decide_eq_true_eq, List.all_eq_true] at hc
  refine ⟨c.2, hc.1, ?_⟩
  intro b hb
  rcases Bool.or_eq_true_iff.mp (hc.2 _ hb) with hne | heq
  · exact (of_decide_eq_true hne rfl).elim
  · exact eq_of_beq (a := b) heq

end

/-- A run that can be evaluated. -/
theorem exists_run (ops : List Op) (P : World → Bool)
    (h : (match run toyKeccak ops with | .ok w => P w | .error _ => false) = true) :
    ∃ w, run toyKeccak ops = .ok w ∧ P w = true := by
  rcases hr : run toyKeccak ops with e | w
  · rw [hr] at h
    cases h
  · rw [hr] at h
    exact ⟨w, rfl, h⟩

/-- One key is inserted and flushed. -/
def insertFlush (k : Key) : List Op :=
  [.new, .call 0 (.insert k (toyHash 70).1 0 0), .call 0 .flush]

theorem insertFlush_meets (k : Key) : Meets keccak (StepOk keccak) (insertFlush k) := by
  apply Meets.of_forall
  intro op hop w a
  simp only [insertFlush, List.mem_cons, List.not_mem_nil, or_false] at hop
  rcases hop with rfl | rfl | rfl
  · trivial
  · exact (toyHash 70).2
  · trivial

/-- What the run leaves for a key that is not all zero. -/
theorem insertFlush_run : ∃ w f, run toyKeccak (insertFlush (keyOf (2 ^ 63))) = .ok w
    ∧ CollisionFree toyKeccak (hashedInputs toyKeccak w (ideal (insertFlush (keyOf (2 ^ 63)))))
    ∧ w.flushed[0]? = some f := by
  obtain ⟨w, hrun, hw⟩ := exists_run (insertFlush (keyOf (2 ^ 63)))
    (fun w => w.store.oneChunk && w.flushed[0]?.isSome) (by decide +kernel)
  rw [Bool.and_eq_true, Option.isSome_iff_exists] at hw
  obtain ⟨hstore, f, hf⟩ := hw
  obtain ⟨chunk, hlen, hchunk⟩ := Store.oneChunk_spec hstore
  refine ⟨w, f, hrun, ?_, hf⟩
  apply toyKeccak_collisionFree (keyOf (2 ^ 63)) zeroKey hlen hchunk
  intro m hm
  exact Or.inr (Or.inl (List.mem_singleton.mp hm))

theorem single_readable : (Contents.single (keyOf (2 ^ 63)) 70).Readable := by
  intro k e hk
  rw [Contents.single, Function.update_apply] at hk
  split at hk
  · rename_i heq
    obtain rfl := Option.some.inj hk
    rw [heq]
    exact ⟨by decide, by decide⟩
  · cases hk

theorem insertFlush_reopenable :
    Reopenable toyKeccak (ideal (insertFlush (keyOf (2 ^ 63)))) 0 .chunkHash := by
  rintro m' ⟨m, hm, rfl | ⟨hvia, -⟩⟩
  · obtain rfl : Contents.single (keyOf (2 ^ 63)) 70 = m' := Option.some.inj hm
    exact ⟨single_readable, hm⟩
  · cases hvia

/-! ## Reading a flush again -/

/-- At any later time, a tree opened at a flush answers every `Get` as the tree in memory did right
after the flush, and no call panics. -/
theorem reopened_get {ops : List Op} {w : World} {j : ℕ} {f : Flushed} {via : Handle}
    (hrun : run keccak ops = .ok w) (hok : Meets keccak (StepOk keccak) ops)
    (hcf : CollisionFree keccak (hashedInputs keccak w (ideal ops)))
    (hf : w.flushed[j]? = some f) (hre : Reopenable keccak (ideal ops) j via) (k : Key) :
    ∃ x n y n', SparseMerkleTree.get keccak f.store.getChunk k f.tree = .ok (x, n)
      ∧ SparseMerkleTree.get keccak w.store.getChunk k (via.open w.store f) = .ok (y, n')
      ∧ y.answer = x.answer ∧ y.err = none := by
  have h := run_refines hrun hok hcf
  obtain ⟨m, hm, hflushed⟩ := ListRel.getElem? h.flushed hf
  obtain ⟨m', hc, hgets, -⟩ := h.reopened hcf hf via fun m' hc => (hre m' hc).1
  obtain rfl : m = m' := Option.some.inj (hm.symm.trans (hre m' hc).2)
  obtain ⟨x, n, hx, hxa, -⟩ := hflushed.gets f.store.getChunk k
  obtain ⟨y, n', hy, hya, hyerr, -⟩ := hgets k
  exact ⟨x, n, y, n', hx, hy, hya.trans hxa.symm, hyerr⟩

theorem reopened_get_inserted : ∃ w f x n y n',
    run toyKeccak (insertFlush (keyOf (2 ^ 63))) = .ok w ∧ w.flushed[0]? = some f
    ∧ SparseMerkleTree.get toyKeccak f.store.getChunk (keyOf (2 ^ 63)) f.tree = .ok (x, n)
    ∧ SparseMerkleTree.get toyKeccak w.store.getChunk (keyOf (2 ^ 63))
        (Handle.chunkHash.open w.store f) = .ok (y, n')
    ∧ y.answer = x.answer ∧ y.err = none := by
  obtain ⟨w, f, hrun, hcf, hf⟩ := insertFlush_run
  obtain ⟨x, n, y, n', h⟩ := reopened_get hrun (insertFlush_meets _) hcf hf insertFlush_reopenable
    (keyOf (2 ^ 63))
  exact ⟨w, f, x, n, y, n', hrun, hf, h⟩

/-- The row of the all-zero key is read back as the row of a subtree. -/
theorem zeroKey_lost : ∃ w f, run toyKeccak (insertFlush zeroKey) = .ok w
    ∧ CollisionFree toyKeccak (hashedInputs toyKeccak w (ideal (insertFlush zeroKey)))
    ∧ w.flushed[0]? = some f
    ∧ (SparseMerkleTree.get toyKeccak f.store.getChunk zeroKey f.tree).map (·.1.found) = .ok true
    ∧ (SparseMerkleTree.get toyKeccak w.store.getChunk zeroKey
        (Handle.chunkHash.open w.store f)).map (·.1.found) = .ok false := by
  obtain ⟨w, hrun, hw⟩ := exists_run (insertFlush zeroKey) (fun w => w.store.oneChunk
    && w.flushed[0]?.any fun f =>
      decide ((SparseMerkleTree.get toyKeccak f.store.getChunk zeroKey f.tree).map (·.1.found)
        = .ok true)
      && decide ((SparseMerkleTree.get toyKeccak w.store.getChunk zeroKey
        (Handle.chunkHash.open w.store f)).map (·.1.found) = .ok false)) (by decide +kernel)
  simp only [Bool.and_eq_true, Option.any_eq_true, decide_eq_true_eq] at hw
  obtain ⟨hstore, f, hf, hmem, hopen⟩ := hw
  obtain ⟨chunk, hlen, hchunk⟩ := Store.oneChunk_spec hstore
  refine ⟨w, f, hrun, ?_, hf, hmem, hopen⟩
  apply toyKeccak_collisionFree zeroKey zeroKey hlen hchunk
  intro m hm
  exact Or.inr (Or.inl (List.mem_singleton.mp hm))

/-! ## Deletions -/

/-- The last flush can only turn out to be itself. -/
theorem Ideal.Candidate.eq_of_last {a : Ideal} {ms : List Contents} {m m' : Contents} {via : Handle}
    (ha : a.flushed = ms ++ [m]) (hc : a.Candidate keccak ms.length via m') : m' = m := by
  obtain ⟨m₀, hm₀, hm' | ⟨-, j', hjj, hj', -⟩⟩ := hc
  · rw [ha, List.getElem?_concat_length] at hm₀
    exact hm'.trans (Option.some.inj hm₀).symm
  · rw [ha] at hj'
    have hlt := (List.getElem?_eq_some_iff.mp hj').1
    rw [List.length_append, List.length_singleton] at hlt
    obtain rfl : j' = ms.length := by omega
    rw [List.getElem?_concat_length] at hj'
    exact (Option.some.inj hj').symm

/-- The contents after a deletion and a flush. -/
theorem ideal_delete_flush {ops : List Op} {i : ℕ} {k : Key} {m : Contents}
    (hm : (ideal ops).trees[i]? = some m) :
    (ideal (ops ++ [.call i (.delete k), .call i .flush])).flushed
      = (ideal ops).flushed ++ [Function.update m k none] := by
  have hsplit : ops ++ [.call i (.delete k), .call i .flush]
      = (ops ++ [.call i (.delete k)]) ++ [.call i .flush] := by simp
  have hlt := (List.getElem?_eq_some_iff.mp hm).1
  rw [hsplit, ideal_concat, ideal_concat]
  simp only [Ideal.step, hm, List.getElem?_set_self hlt]
  rw [recordContents_of_ne_flush (by simp), List.append_nil]
  rfl

/-- A deletion that is followed by a flush lasts: a tree opened at that flush does not have the key,
has every other key as before, and its own `Flush` reports the same Merkle root. -/
theorem delete_durable {ops : List Op} {w w' : World} {i : ℕ} {n : Node} {k : Key} {f : Flushed}
    (via : Handle) (hrun : run keccak ops = .ok w) (hn : w.trees[i]? = some n)
    (hrun' : run keccak (ops ++ [.call i (.delete k), .call i .flush]) = .ok w')
    (hok : Meets keccak (StepOk keccak) (ops ++ [.call i (.delete k), .call i .flush]))
    (hcf : CollisionFree keccak
      (hashedInputs keccak w' (ideal (ops ++ [.call i (.delete k), .call i .flush]))))
    (hf : w'.flushed.getLast? = some f)
    (hread : ∀ m, (ideal ops).trees[i]? = some m → Contents.Readable (Function.update m k none)) :
    (∃ y t, SparseMerkleTree.get keccak w'.store.getChunk k (via.open w'.store f) = .ok (y, t)
        ∧ y.found = false)
      ∧ (∀ k', k' ≠ k → ∃ x t y t', SparseMerkleTree.get keccak w.store.getChunk k' n = .ok (x, t)
        ∧ SparseMerkleTree.get keccak w'.store.getChunk k' (via.open w'.store f) = .ok (y, t')
        ∧ y.answer = x.answer)
      ∧ ∃ t writes, SparseMerkleTree.flush keccak w'.store.getChunk (via.open w'.store f)
          = .ok (t, writes)
        ∧ SparseMerkleTree.merkleRoot t = SparseMerkleTree.merkleRoot f.tree := by
  have h' := run_refines hrun' hok hcf
  have hsplit : ops ++ [.call i (.delete k), .call i .flush]
      = (ops ++ [.call i (.delete k)]) ++ [.call i .flush] := by simp
  -- the state before the deletion
  have h : Refines keccak w (ideal ops) := by
    rw [hsplit] at hrun' hok hcf
    obtain ⟨w₁, hrun₁, hstep₁⟩ := run_concat hrun'
    obtain ⟨w₀, hrun₀, hstep₀⟩ := run_concat hrun₁
    obtain rfl : w₀ = w := Except.ok.inj (hrun₀.symm.trans hrun)
    apply run_refines hrun hok.of_concat.of_concat
    rw [ideal_concat, ideal_concat] at hcf
    apply hcf.mono
    exact hashedInputs_mono (fun x hx => step_store_grows hstep₁ x (step_store_grows hstep₀ x hx))
      fun m hm => step_flushed_grows _ _ m (step_flushed_grows _ _ m hm)
  obtain ⟨m, hm, ts, hrep, hholds⟩ := ListRel.getElem? h.trees hn
  have hlast := ideal_delete_flush (k := k) hm
  have hlen : w'.flushed.length - 1 = (ideal ops).flushed.length := by
    rw [h'.flushed.length_eq, hlast, List.length_append, List.length_singleton, Nat.add_sub_cancel]
  rw [List.getLast?_eq_getElem?, hlen] at hf
  obtain ⟨m', hc, hgets, hflushes⟩ := h'.reopened hcf hf via fun m' hc => by
    rw [hc.eq_of_last hlast]
    exact hread m hm
  obtain rfl := hc.eq_of_last hlast
  refine ⟨?_, ?_, ?_⟩
  · obtain ⟨y, t, hy, hans, -⟩ := hgets k
    rw [Function.update_self] at hans
    exact ⟨y, t, hy, congrArg (·.2.1) hans⟩
  · intro k' hne
    obtain ⟨y, t', hy, hya, -⟩ := hgets k'
    obtain ⟨x, t, hx, -, hxa, -⟩ :=
      treeGet_represents (Backing.store_serves w.store) (fun _ hr => hr) hrep hholds k'
    rw [Function.update_of_ne hne] at hya
    exact ⟨x, t, y, t', hx, hy, hya.trans hxa.symm⟩
  · obtain ⟨t, writes, ht, hroot⟩ := hflushes
    obtain ⟨m', hm', ts', ht'⟩ := ListRel.getElem? h'.flushed hf
    rw [hlast, List.getElem?_concat_length] at hm'
    obtain rfl := Option.some.inj hm'
    refine ⟨t, writes, ht, ?_⟩
    rw [SparseMerkleTree.merkleRoot, SparseMerkleTree.merkleRoot, hroot, ht'.merkle]

/-- A key is deleted between two flushes. -/
def insertInsert : List Op :=
  insertFlush (keyOf (2 ^ 63)) ++ [.call 0 (.insert (keyOf 1) (toyHash 9).1 0 0)]

theorem delete_durable_inserted : ∃ w f y t,
    run toyKeccak (insertInsert ++ [.call 0 (.delete (keyOf 1)), .call 0 .flush]) = .ok w
    ∧ w.flushed.getLast? = some f
    ∧ SparseMerkleTree.get toyKeccak w.store.getChunk (keyOf 1) (Handle.chunkHash.open w.store f)
        = .ok (y, t)
    ∧ y.found = false := by
  obtain ⟨w, hrun, hw⟩ := exists_run insertInsert (fun w => w.trees[0]?.any fun n =>
    pathMarked nkeypieces (keyOf 1) n) (by decide +kernel)
  obtain ⟨w', hrun', hw'⟩ := exists_run
    (insertInsert ++ [.call 0 (.delete (keyOf 1)), .call 0 .flush])
    (fun w => w.store.oneChunk && w.flushed.getLast?.isSome) (by decide +kernel)
  simp only [Option.any_eq_true] at hw
  obtain ⟨n, hn, hmark⟩ := hw
  rw [Bool.and_eq_true, Option.isSome_iff_exists] at hw'
  obtain ⟨hstore, f, hf⟩ := hw'
  obtain ⟨chunk, hlen, hchunk⟩ := Store.oneChunk_spec hstore
  have hsingle : Function.update (Function.update (Contents.single (keyOf (2 ^ 63)) 70) (keyOf 1)
      (some ⟨(toyHash 9).1, 0, 0⟩)) (keyOf 1) none = Contents.single (keyOf (2 ^ 63)) 70 := by
    rw [Function.update_idem, Function.update_eq_self_iff]
    rfl
  have htree : (ideal insertInsert).trees[0]? = some (Function.update
      (Contents.single (keyOf (2 ^ 63)) 70) (keyOf 1) (some ⟨(toyHash 9).1, 0, 0⟩)) := rfl
  have hok : Meets toyKeccak (StepOk toyKeccak)
      (insertInsert ++ [.call 0 (.delete (keyOf 1)), .call 0 .flush]) := by
    rw [show insertInsert ++ [Op.call 0 (.delete (keyOf 1)), .call 0 .flush]
      = (insertInsert ++ [.call 0 (.delete (keyOf 1))]) ++ [.call 0 .flush] by simp]
    refine Meets.concat (Meets.concat (Meets.concat (insertFlush_meets _) ?_) ?_) ?_
    · exact fun _ _ => (toyHash 9).2
    · intro w₁ hw₁ n₁ m₁ hn₁ _
      obtain rfl : w = w₁ := Except.ok.inj (hrun.symm.trans hw₁)
      obtain rfl : n = n₁ := Option.some.inj (hn.symm.trans hn₁)
      exact Or.inr hmark
    · exact fun _ _ => trivial
  obtain ⟨⟨y, t, hy, hfound⟩, -⟩ := delete_durable .chunkHash hrun hn hrun' hok
    (by
      apply toyKeccak_collisionFree (keyOf (2 ^ 63)) zeroKey hlen hchunk
      intro m hm
      rw [ideal_delete_flush htree, hsingle] at hm
      rcases List.mem_append.mp hm with hm | hm
      · exact Or.inr (Or.inl (List.mem_singleton.mp hm))
      · exact Or.inr (Or.inl (List.mem_singleton.mp hm)))
    hf
    (by
      intro m hm
      obtain rfl := Option.some.inj (htree.symm.trans hm)
      rw [hsingle]
      exact single_readable)
  exact ⟨w', f, y, t, hrun', hf, hy, hfound⟩

/-- A key is deleted in a tree that was opened again and has loaded nothing yet. -/
def insertReopenDelete : List Op := insertFlush (keyOf (2 ^ 63))
  ++ [.reopen 0 .chunkHash, .call 1 (.delete (keyOf (2 ^ 63))), .call 1 .flush]

/-- `delete` does not load the node, so the key stays. -/
theorem delete_lost : ∃ w f, run toyKeccak insertReopenDelete = .ok w
    ∧ CollisionFree toyKeccak (hashedInputs toyKeccak w (ideal insertReopenDelete))
    ∧ w.flushed.getLast? = some f
    ∧ (SparseMerkleTree.get toyKeccak w.store.getChunk (keyOf (2 ^ 63))
        (Handle.chunkHash.open w.store f)).map (·.1.found) = .ok true := by
  obtain ⟨w, hrun, hw⟩ := exists_run insertReopenDelete (fun w => w.store.oneChunk
    && w.flushed.getLast?.any fun f =>
      decide ((SparseMerkleTree.get toyKeccak w.store.getChunk (keyOf (2 ^ 63))
        (Handle.chunkHash.open w.store f)).map (·.1.found) = .ok true)) (by decide +kernel)
  simp only [Bool.and_eq_true, Option.any_eq_true, decide_eq_true_eq] at hw
  obtain ⟨hstore, f, hf, hopen⟩ := hw
  obtain ⟨chunk, hlen, hchunk⟩ := Store.oneChunk_spec hstore
  refine ⟨w, f, hrun, ?_, hf, hopen⟩
  apply toyKeccak_collisionFree (keyOf (2 ^ 63)) zeroKey hlen hchunk
  have hempty : Function.update (Contents.single (keyOf (2 ^ 63)) 70) (keyOf (2 ^ 63)) none
      = Contents.empty := by
    rw [Contents.single, Function.update_idem, Function.update_eq_self_iff]
    rfl
  intro m hm
  have hm' : m ∈ [Contents.single (keyOf (2 ^ 63)) 70,
    Function.update (Contents.single (keyOf (2 ^ 63)) 70) (keyOf (2 ^ 63)) none] := hm
  rw [hempty, List.mem_pair] at hm'
  rcases hm' with rfl | rfl
  · exact Or.inr (Or.inl rfl)
  · exact Or.inl rfl

/-! ## Proofs -/

/-- `Get` returns a proof with every value. -/
theorem proof_of_found {cs : Reader} {k : Key} {n n' : Node} {x : SparseMerkleTree.Found}
    (h : SparseMerkleTree.get keccak cs k n = .ok (x, n')) (hfound : x.found = true) :
    ∃ p, x.p = some p := by
  unfold SparseMerkleTree.get at h
  rcases hget : Smt.get cs nkeypieces k n with e | ⟨res, n₁⟩
  · simp only [hget, bind, Except.bind] at h
    cases h
  · rcases res with _ | e
    · simp only [hget, bind, Except.bind] at h
      obtain ⟨rfl, -⟩ := Prod.mk.inj (Except.ok.inj h)
      cases hfound
    · rcases hgen : generateProof keccak cs nkeypieces k ⟨k, [], 0⟩ n₁ with e' | ⟨ok, p, n₂⟩
      · simp only [hget, hgen, bind, Except.bind] at h
        cases h
      · simp only [hget, hgen, bind, Except.bind] at h
        obtain ⟨rfl, -⟩ := Prod.mk.inj (Except.ok.inj h)
        exact ⟨p, rfl⟩

/-- A tree that answers as its contents say, and whose keys have no false defaults. -/
theorem GetsAs.proof {cs : Reader} {n : Node} {m : Contents} (h : GetsAs keccak cs n m)
    (hacc : ∀ k, m k ≠ none → NoFalseDefault keccak (m.leaf keccak) (num k)) (k : Key) :
    ∃ x t, SparseMerkleTree.get keccak cs k n = .ok (x, t) ∧ (x.found = true →
      ∃ p, x.p = some p ∧ p.check keccak x.v0 (m.root keccak) = .ok true) := by
  obtain ⟨x, t, hx, hans, -, hproof⟩ := h k
  refine ⟨x, t, hx, ?_⟩
  intro hfound
  have hk : m k ≠ none := by
    intro hnone
    rw [hnone] at hans
    have hfalse : x.found = false := congrArg (·.2.1) hans
    rw [hfound] at hfalse
    cases hfalse
  obtain ⟨p, hp⟩ := proof_of_found hx hfound
  exact ⟨p, hp, hproof (hacc k hk) p hp⟩

/-- Contents with the same leaves have the same root. -/
theorem Contents.SameLeaves.root_eq {m m' : Contents} (h : m.SameLeaves keccak m') :
    m.root keccak = m'.root keccak := by
  apply BinTree.root_congr
  intro q hq
  have hlt : q < 2 ^ 64 := (Nat.div_eq_zero_iff.mp hq).resolve_left (by decide)
  have hleaf := h (keyOf q)
  rwa [num_keyOf hlt] at hleaf

/-- No sibling of a key of a flush is left out by mistake. -/
theorem Refines.noFalseDefault {w : World} {a : Ideal} (h : Refines keccak w a)
    (hcf : CollisionFree keccak (hashedInputs keccak w a)) {j : ℕ} {m : Contents}
    (hm : a.flushed[j]? = some m) {k : Key} (hk : m k ≠ none) :
    NoFalseDefault keccak (m.leaf keccak) (num k) := by
  obtain ⟨f, -, ts, ht⟩ := ListRel.getElem? h.flushed.flip hm
  exact ht.noFalseDefault hcf (List.mem_of_getElem? hm) hk

/-- The Merkle root that a flush reported is that of its contents. -/
theorem FlushedOf.merkleRoot_eq {s : Store} {f : Flushed} {m : Contents}
    (h : FlushedOf keccak s f m) : (SparseMerkleTree.merkleRoot f.tree).1 = m.root keccak := by
  obtain ⟨ts, ht⟩ := h
  rw [SparseMerkleTree.merkleRoot, ht.merkle]
  exact bytesToHash_of_length (length_hashPair _ _)

/-- The proof that `Get` returns with a value checks against the Merkle root of the flush: on the
tree in memory, and on a tree opened at the flush at any later time. -/
theorem found_proof_checks {ops : List Op} {w : World} {j : ℕ} {f : Flushed}
    (hrun : run keccak ops = .ok w) (hok : Meets keccak (StepOk keccak) ops)
    (hcf : CollisionFree keccak (hashedInputs keccak w (ideal ops)))
    (hf : w.flushed[j]? = some f) (k : Key) :
    (∃ x t, SparseMerkleTree.get keccak f.store.getChunk k f.tree = .ok (x, t)
        ∧ (x.found = true → ∃ p, x.p = some p
          ∧ p.check keccak x.v0 (SparseMerkleTree.merkleRoot f.tree).1 = .ok true))
      ∧ ∀ via, (∀ m', (ideal ops).Candidate keccak j via m' → m'.Readable) →
        ∃ x t, SparseMerkleTree.get keccak w.store.getChunk k (via.open w.store f) = .ok (x, t)
          ∧ (x.found = true → ∃ p, x.p = some p
            ∧ p.check keccak x.v0 (SparseMerkleTree.merkleRoot f.tree).1 = .ok true) := by
  have h := run_refines hrun hok hcf
  obtain ⟨m, hm, hflushed⟩ := ListRel.getElem? h.flushed hf
  have hacc : ∀ (j' : ℕ) m', (ideal ops).flushed[j']? = some m' → ∀ k, m' k ≠ none →
      NoFalseDefault keccak (m'.leaf keccak) (num k) :=
    fun j' m' hm' k hk => h.noFalseDefault hcf hm' hk
  rw [hflushed.merkleRoot_eq]
  refine ⟨(hflushed.gets f.store.getChunk).proof (hacc j m hm) k, ?_⟩
  intro via hread
  obtain ⟨m', hc, hgets, -⟩ := h.reopened hcf hf via hread
  -- a Merkle root may lead to another flush with the same leaves, and then the roots agree
  obtain ⟨m₀, hm₀, rfl | ⟨-, j', -, hm', hsame⟩⟩ := hc
  · obtain rfl : m = m' := Option.some.inj (hm.symm.trans hm₀)
    exact hgets.proof (hacc j m hm) k
  · obtain rfl : m = m₀ := Option.some.inj (hm.symm.trans hm₀)
    rw [← hsame.root_eq]
    exact hgets.proof (hacc j' m' hm') k

theorem found_proof_checks_inserted : ∃ w f x t,
    run toyKeccak (insertFlush (keyOf (2 ^ 63))) = .ok w ∧ w.flushed[0]? = some f
    ∧ SparseMerkleTree.get toyKeccak w.store.getChunk (keyOf (2 ^ 63))
        (Handle.chunkHash.open w.store f) = .ok (x, t)
    ∧ (x.found = true → ∃ p, x.p = some p
      ∧ p.check toyKeccak x.v0 (SparseMerkleTree.merkleRoot f.tree).1 = .ok true) := by
  obtain ⟨w, f, hrun, hcf, hf⟩ := insertFlush_run
  obtain ⟨-, hopen⟩ := found_proof_checks hrun (insertFlush_meets _) hcf hf (keyOf (2 ^ 63))
  obtain ⟨x, t, hx, hproof⟩ := hopen .chunkHash fun m' hc => (insertFlush_reopenable m' hc).1
  exact ⟨w, f, x, t, hrun, hf, hx, hproof⟩

/-- A flush that is opened by its Merkle root at any later time: `Get` finds the entries of the
flush, and `GenerateProof` makes proofs of them that check against the root. -/
theorem reopened_proof {ops : List Op} {w : World} {j : ℕ} {f : Flushed}
    (hrun : run keccak ops = .ok w) (hok : Meets keccak (StepOk keccak) ops)
    (hcf : CollisionFree keccak (hashedInputs keccak w (ideal ops)))
    (hf : w.flushed[j]? = some f) (hre : Reopenable keccak (ideal ops) j .merkleRoot)
    {m : Contents} (hm : (ideal ops).flushed[j]? = some m) {k : Key} {e : Entry}
    (hk : m k = some e) :
    (∃ x t, SparseMerkleTree.get keccak w.store.getChunk k (Handle.merkleRoot.open w.store f)
        = .ok (x, t) ∧ x.found = true ∧ x.v0 = e.value)
      ∧ ∃ p t, SparseMerkleTree.generateProof keccak w.store.getChunk k
          (Handle.merkleRoot.open w.store f) = .ok (p, t)
        ∧ p.check keccak e.value (SparseMerkleTree.merkleRoot f.tree).1 = .ok true := by
  have h := run_refines hrun hok hcf
  obtain ⟨m', hc, hopen | ⟨hvia, -⟩⟩ := h.open hcf hf .merkleRoot fun m' hc => (hre m' hc).1
  · obtain rfl : m = m' := Option.some.inj (hm.symm.trans (hre m' hc).2)
    obtain ⟨m₀, hm₀, hflushed⟩ := ListRel.getElem? h.flushed hf
    obtain rfl : m = m₀ := Option.some.inj (hm.symm.trans hm₀)
    refine ⟨?_, ?_⟩
    · obtain ⟨x, t, hx, hans, -⟩ := hopen.gets k
      rw [hk] at hans
      obtain ⟨hv, hrest⟩ := Prod.mk.inj hans
      exact ⟨x, t, hx, (Prod.mk.inj hrest).1, hv⟩
    · obtain ⟨ts, hn, hholds, -⟩ := hopen
      have hdown : ∀ r, FreshBelow (r + 1) → FreshBelow r := fun _ hr => Nat.lt_of_succ_lt hr
      obtain ⟨p, t, hgen, -, hcheck⟩ :=
        treeProof_represents (Backing.store_serves w.store) hdown hn hholds hk
      refine ⟨p, t, ?_, ?_⟩
      · simp only [SparseMerkleTree.generateProof, hgen, bind, Except.bind]
      · rw [hflushed.merkleRoot_eq]
        exact hcheck (fun _ hq => hq)
          (h.noFalseDefault hcf hm (by rw [hk]; exact Option.some_ne_none e))
  · cases hvia

/-- Two keys, of which the second has the all-zero value. -/
def insertZeroValue : List Op :=
  [.new, .call 0 (.insert (keyOf (2 ^ 63)) (toyHash 70).1 0 0),
    .call 0 (.insert (keyOf 1) (Bytes.zeros 32) 0 0), .call 0 .flush]

/-- The row of an all-zero value is read back as "no child", so that the sibling of the other key
is taken to be empty. -/
theorem zeroValue_proof_fails : ∃ w f, run toyKeccak insertZeroValue = .ok w
    ∧ CollisionFree toyKeccak (hashedInputs toyKeccak w (ideal insertZeroValue))
    ∧ w.flushed[0]? = some f
    ∧ (SparseMerkleTree.get toyKeccak w.store.getChunk (keyOf (2 ^ 63))
        (Handle.chunkHash.open w.store f)).map (fun r => (r.1.found, r.1.p.map fun p =>
          p.check toyKeccak r.1.v0 (SparseMerkleTree.merkleRoot f.tree).1))
      = .ok (true, some (.ok false)) := by
  obtain ⟨w, hrun, hw⟩ := exists_run insertZeroValue (fun w => w.store.oneChunk
    && w.flushed[0]?.any fun f => decide
      ((SparseMerkleTree.get toyKeccak w.store.getChunk (keyOf (2 ^ 63))
        (Handle.chunkHash.open w.store f)).map (fun r => (r.1.found, r.1.p.map fun p =>
          p.check toyKeccak r.1.v0 (SparseMerkleTree.merkleRoot f.tree).1))
      = .ok (true, some (.ok false)))) (by decide +kernel)
  simp only [Bool.and_eq_true, Option.any_eq_true, decide_eq_true_eq] at hw
  obtain ⟨hstore, f, hf, hopen⟩ := hw
  obtain ⟨chunk, hlen, hchunk⟩ := Store.oneChunk_spec hstore
  refine ⟨w, f, hrun, ?_, hf, hopen⟩
  apply toyKeccak_collisionFree (keyOf (2 ^ 63)) (keyOf 1) hlen hchunk
  intro m hm
  exact Or.inr (Or.inr ⟨List.mem_singleton.mp hm, by decide, by decide⟩)

end GoPlasma.Smt
