import GoPlasma.Smt.ProofTheorems

/-!
# Trees in memory

A tree that was created empty and never opened from storage has all its nodes in memory, so
every call does what the abstract tree does, whatever the store answers. The main results:

* a tree is a map from keys to what was last inserted (`get_lastUpdate`);
* after any calls, a `Flush` that returns reports the root of the complete binary tree over the
  contents (`flush_merkleRoot`);
* after insertions of distinct keys, `Flush` returns exactly when no two of the keys agree in
  their first 15 pieces (`flush_returns_iff`).
-/

namespace GoPlasma.Smt

variable {keccak : Bytes → Hash}

/-- Nothing is asked of the store, and nothing is left in it. -/
def Backing.memory : Backing := ⟨fun _ _ _ => True, fun _ _ _ => False⟩

theorem Backing.memory_inMemory : Backing.memory.InMemory := fun _ _ _ => ⟨trivial, id⟩

theorem Backing.memory_serves (R : ℕ → Prop) (pcs : Reader) :
    Backing.memory.Serves keccak R pcs where
  clean := fun _ _ _ _ => trivial
  rows := fun _ _ _ h => h.elim

theorem Backing.memory_accepts (writes : List (Bytes × Bytes)) :
    Backing.memory.Accepts keccak Backing.memory writes where
  keep := fun _ _ _ h => h
  write := fun _ _ _ _ _ _ _ => trivial

variable (keccak) in
/-- The tree is in memory and has these contents. -/
def InMemory (n : Node) (m : Contents) : Prop :=
  ∃ ts, Represents keccak Stale Backing.memory nkeypieces n (.branch ts) ∧ Holds (.branch ts) m

theorem inMemory_new : InMemory keccak SparseMerkleTree.new Contents.empty :=
  ⟨fun _ => .nil, new_represents trivial id, holds_empty⟩

/-- A `Flush` that returns: what it reports, and that the tree stays what it is. -/
theorem InMemory.flush {n n' : Node} {m : Contents} {cs : Reader} {writes : List (Bytes × Bytes)}
    (h : InMemory keccak n m) (hf : SparseMerkleTree.flush keccak cs n = .ok (n', writes)) :
    InMemory keccak n' m ∧ SparseMerkleTree.rootMerkle n' = m.root keccak := by
  obtain ⟨ts, hn, hm⟩ := h
  rcases treeFlush_represents (Backing.memory_serves Stale cs) hn with
    ⟨-, n₁, writes₁, hf₁, hroot, -, hacc⟩ | ⟨-, e, hf₁⟩
  · rw [hf] at hf₁
    obtain ⟨rfl, -⟩ := Prod.mk.inj (Except.ok.inj hf₁)
    obtain ⟨-, hrep⟩ := hacc Backing.memory (Backing.memory_accepts writes₁)
    refine ⟨⟨ts, ?_, hm⟩, ?_⟩
    · exact hrep.mono (fun _ => False.elim) (fun _ _ _ h => h) (fun _ _ _ h => h)
    · rw [hroot, hm.root_eq]
  · rw [hf] at hf₁
    cases hf₁

/-- One call keeps the tree in memory and changes the contents as it should. -/
theorem InMemory.exec {n n' : Node} {m : Contents} {s s' : Store} (call : Call)
    (h : InMemory keccak n m) (hx : call.exec keccak s n = .ok (n', s')) :
    InMemory keccak n' (call.apply m) := by
  have hserve : Backing.memory.Serves keccak Stale s.getChunk := Backing.memory_serves _ _
  -- nothing is unread in memory, so no call needs the store
  rcases call with ⟨k, v, sb, bn⟩ | k | k | _
  · obtain ⟨ts, hn, hm⟩ := h
    obtain ⟨n₁, hins, hn₁⟩ := insert_represents hserve le_rfl v sb bn hn hm.wf (num_div_top k)
    simp only [Call.exec, SparseMerkleTree.insert, hins, bind, Except.bind] at hx
    obtain ⟨rfl, -⟩ := Prod.mk.inj (Except.ok.inj hx)
    exact ⟨_, hn₁, hm.upsert k _⟩
  · obtain ⟨ts, hn, hm⟩ := h
    obtain ⟨rfl, -⟩ := Prod.mk.inj (Except.ok.inj hx)
    have hdel := delete_represents (k := k) le_rfl hn (Or.inl Backing.memory_inMemory)
    exact ⟨_, hdel, hm.delete k⟩
  · obtain ⟨ts, hn, hm⟩ := h
    obtain ⟨res, n₁, hget, hn₁, -⟩ := treeGet_represents hserve (fun _ h => h) hn hm k
    simp only [Call.exec, hget, bind, Except.bind] at hx
    obtain ⟨rfl, -⟩ := Prod.mk.inj (Except.ok.inj hx)
    exact ⟨ts, hn₁, hm⟩
  · rcases hf : SparseMerkleTree.flush keccak s.getChunk n with e | ⟨n₁, writes⟩
    · simp only [Call.exec, hf, bind, Except.bind] at hx
      cases hx
    · simp only [Call.exec, hf, bind, Except.bind] at hx
      obtain ⟨rfl, -⟩ := Prod.mk.inj (Except.ok.inj hx)
      exact (h.flush hf).1

/-- So does any sequence of calls. -/
theorem InMemory.execAll {calls : List Call} {n n' : Node} {m : Contents} {s s' : Store}
    (h : InMemory keccak n m) (hx : execAll keccak calls s n = .ok (n', s')) :
    InMemory keccak n' (Contents.after calls m) := by
  induction calls generalizing n m s with
  | nil =>
    obtain ⟨rfl, -⟩ := Prod.mk.inj (Except.ok.inj hx)
    exact h
  | cons call calls ih =>
    rcases hc : call.exec keccak s n with e | ⟨n₁, s₁⟩
    · simp only [Smt.execAll, hc, bind, Except.bind] at hx
      cases hx
    · simp only [Smt.execAll, hc, bind, Except.bind] at hx
      exact ih (h.exec call hc) hx

/-- After any calls on a new tree, a `Flush` that returns reports the root of the complete
binary tree of depth 64 over the contents. -/
theorem flush_merkleRoot (calls : List Call) {s s' : Store} {n n' : Node}
    {writes : List (Bytes × Bytes)}
    (hcalls : execAll keccak calls s SparseMerkleTree.new = .ok (n, s'))
    (hflush : SparseMerkleTree.flush keccak s'.getChunk n = .ok (n', writes)) :
    (SparseMerkleTree.merkleRoot n').1 = (Contents.after calls Contents.empty).root keccak := by
  obtain ⟨-, hroot⟩ := (inMemory_new.execAll hcalls).flush hflush
  rw [SparseMerkleTree.merkleRoot, hroot]
  apply bytesToHash_of_length
  exact (keccak _).2

theorem flush_merkleRoot_pair : ∃ n n' writes,
    execAll (fun _ => zeroHash) [.insert zeroKey (Bytes.zeros 32) 0 0,
      .insert (keyOf (2 ^ 60)) (Bytes.zeros 32) 0 0, .delete zeroKey] [] SparseMerkleTree.new
        = .ok (n, [])
    ∧ SparseMerkleTree.flush (fun _ => zeroHash) (Store.getChunk []) n = .ok (n', writes)
    ∧ (SparseMerkleTree.merkleRoot n').1
      = (Contents.after [.insert zeroKey (Bytes.zeros 32) 0 0,
        .insert (keyOf (2 ^ 60)) (Bytes.zeros 32) 0 0, .delete zeroKey] Contents.empty).root
          (fun _ => zeroHash) :=
  ⟨_, _, _, rfl, rfl, flush_merkleRoot _ (show execAll _ _ [] _ = .ok (_, []) from rfl) rfl⟩

/-! ## A finite map -/

/-- A call that changes the map. -/
inductive Update where
  | insert (k : Key) (v : Bytes) (storageBytesNew blockNum : UInt64)
  | delete (k : Key)

/-- The call. -/
def Update.call : Update → Call
  | .insert k v storageBytesNew blockNum => .insert k v storageBytesNew blockNum
  | .delete k => .delete k

/-- The key that it is about. -/
def Update.key : Update → Key
  | .insert k _ _ _ => k
  | .delete k => k

/-- The value of its key afterwards. -/
def Update.value : Update → Option Bytes
  | .insert _ v _ _ => some v
  | .delete _ => none

/-- The updates of one key. -/
def updatesOf (k : Key) (updates : List Update) : List Update :=
  updates.filter fun u => decide (u.key = k)

/-- The value that the last update of the key has left. -/
def lastValue (k : Key) (updates : List Update) : Option Bytes :=
  (updatesOf k updates).getLast?.bind Update.value

theorem updatesOf_concat (k : Key) (updates : List Update) (u : Update) :
    updatesOf k (updates ++ [u])
      = if u.key = k then updatesOf k updates ++ [u] else updatesOf k updates := by
  rw [updatesOf, List.filter_append, List.filter_singleton]
  by_cases h : u.key = k
  · simp [h, updatesOf]
  · simp [h, updatesOf]

/-- Updates of one key change its entry alone. -/
theorem apply_update_of_ne {u : Update} {k : Key} (h : u.key ≠ k) (m : Contents) :
    u.call.apply m k = m k := by
  rcases u with ⟨k', v, sb, bn⟩ | k'
  · exact Function.update_of_ne (Ne.symm h) _ _
  · exact Function.update_of_ne (Ne.symm h) _ _

/-- The entry of a key after an update depends on the entry before. -/
theorem apply_update_congr {m m' : Contents} {k : Key} (h : m k = m' k) (u : Update) :
    u.call.apply m k = u.call.apply m' k := by
  by_cases hk : u.key = k
  · subst hk
    rcases u with ⟨k', v, sb, bn⟩ | k'
    · have hm : m k' = m' k' := h
      simp only [Update.call, Update.key, Call.apply, Function.update_self, hm]
    · simp only [Update.call, Update.key, Call.apply, Function.update_self]
  · rw [apply_update_of_ne hk, apply_update_of_ne hk, h]

/-- The value of the key of an update. -/
theorem apply_update_value (u : Update) (m : Contents) :
    (u.call.apply m u.key).map Entry.value = u.value := by
  rcases u with ⟨k, v, sb, bn⟩ | k
  · simp only [Update.call, Update.key, Update.value, Call.apply, Function.update_self,
      Option.map_some]
    rcases m k with _ | e
    · rfl
    · rw [updateEntry]
      split_ifs with hv
      · rw [hv]
      · rfl
  · simp only [Update.call, Update.key, Update.value, Call.apply, Function.update_self,
      Option.map_none]

/-- The contents after updates. -/
def afterUpdates (updates : List Update) : Contents :=
  Contents.after (updates.map Update.call) Contents.empty

theorem afterUpdates_concat (updates : List Update) (u : Update) :
    afterUpdates (updates ++ [u]) = u.call.apply (afterUpdates updates) := by
  simp [afterUpdates, Contents.after]

/-- The entry of a key is decided by the updates of that key. -/
theorem afterUpdates_updatesOf (updates : List Update) (k : Key) :
    afterUpdates updates k = afterUpdates (updatesOf k updates) k := by
  induction updates using List.reverseRecOn with
  | nil => rfl
  | append_singleton updates u ih =>
    rw [afterUpdates_concat, updatesOf_concat]
    split_ifs with hk
    · rw [afterUpdates_concat]
      exact apply_update_congr ih u
    · rw [apply_update_of_ne hk, ih]

/-- The value of a key is that of its last update. -/
theorem afterUpdates_value (updates : List Update) (k : Key) :
    (afterUpdates updates k).map Entry.value = lastValue k updates := by
  induction updates using List.reverseRecOn with
  | nil => rfl
  | append_singleton updates u ih =>
    rw [afterUpdates_concat, lastValue, updatesOf_concat]
    split_ifs with hk
    · rw [List.getLast?_concat, ← hk]
      exact apply_update_value u _
    · rw [apply_update_of_ne hk, ih, lastValue]

/-- Updates of a new tree never panic. -/
theorem updates_run (updates : List Update) (s : Store) : ∃ n,
    execAll keccak (updates.map Update.call) s SparseMerkleTree.new = .ok (n, s)
      ∧ InMemory keccak n (afterUpdates updates) := by
  induction updates using List.reverseRecOn with
  | nil => exact ⟨_, rfl, inMemory_new⟩
  | append_singleton updates u ih =>
    obtain ⟨n, hx, hn⟩ := ih
    have hstep : ∃ n', u.call.exec keccak s n = .ok (n', s) := by
      rcases u with ⟨k, v, sb, bn⟩ | k
      · obtain ⟨ts, hrep, hm⟩ := hn
        obtain ⟨n', hins, -⟩ := insert_represents (Backing.memory_serves Stale s.getChunk) le_rfl
          v sb bn hrep hm.wf (num_div_top k)
        refine ⟨n', ?_⟩
        simp only [Update.call, Call.exec, SparseMerkleTree.insert, hins, bind, Except.bind]
      · exact ⟨_, rfl⟩
    obtain ⟨n', hn'⟩ := hstep
    refine ⟨n', ?_, ?_⟩
    · rw [List.map_append, execAll_append, hx]
      simp only [bind, Except.bind, List.map_cons, List.map_nil, execAll, hn']
    · rw [afterUpdates_concat]
      exact hn.exec u.call hn'

/-- What an answer says about the value. -/
theorem found_of_answer {res : SparseMerkleTree.Found} {e : Option Entry}
    (h : res.answer = answerOf e) :
    (res.found = true ↔ ∃ v, e.map Entry.value = some v)
      ∧ ∀ v, e.map Entry.value = some v → res.v0 = v := by
  rcases e with _ | e
  · simp_all [SparseMerkleTree.Found.answer, answerOf]
  · simp_all [SparseMerkleTree.Found.answer, answerOf]

/-- After any sequence of `Insert` and `Delete` calls on a new tree, `Get` reports a key as found
exactly when the last call on the key was an `Insert`, and then returns the value of that call.
Calls on other keys change nothing of the answer: it is the one that the calls on this key alone
give. -/
theorem get_lastUpdate (updates : List Update) (s : Store) (k : Key) : ∃ n n' res,
    execAll keccak (updates.map Update.call) s SparseMerkleTree.new = .ok (n, s)
      ∧ SparseMerkleTree.get keccak s.getChunk k n = .ok (res, n') ∧ res.err = none
      ∧ (res.found = true ↔ ∃ v, lastValue k updates = some v)
      ∧ (∀ v, lastValue k updates = some v → res.v0 = v)
      ∧ res.answer = answerOf (afterUpdates (updatesOf k updates) k) := by
  have hrun : ∃ n, execAll keccak (updates.map Update.call) s SparseMerkleTree.new = .ok (n, s)
      ∧ InMemory keccak n (afterUpdates updates) := updates_run updates s
  obtain ⟨n, hx, ts, hrep, hm⟩ := hrun
  obtain ⟨res, n', hget, -, hans, herr, -⟩ :=
    treeGet_represents (Backing.memory_serves Stale s.getChunk) (fun _ h => h) hrep hm k
  obtain ⟨hfound, hv0⟩ := found_of_answer hans
  rw [afterUpdates_value] at hfound hv0
  refine ⟨n, n', res, hx, hget, herr, hfound, hv0, ?_⟩
  rw [hans, afterUpdates_updatesOf]

/-! ## When `Flush` returns -/

/-- The calls that insert these keys, values and accounting fields. -/
def insertions (entries : List (Key × Bytes × UInt64 × UInt64)) : List Call :=
  entries.map fun x => .insert x.1 x.2.1 x.2.2.1 x.2.2.2

/-- Insertions fill the tree with their keys. -/
theorem after_insertions_ne_none (entries : List (Key × Bytes × UInt64 × UInt64)) (m : Contents)
    (k : Key) :
    Contents.after (insertions entries) m k ≠ none ↔ m k ≠ none ∨ k ∈ entries.map (·.1) := by
  induction entries generalizing m with
  | nil => simp [insertions, Contents.after]
  | cons x entries ih =>
    have hstep : Contents.after (insertions (x :: entries)) m
        = Contents.after (insertions entries)
            (Call.apply (.insert x.1 x.2.1 x.2.2.1 x.2.2.2) m) := rfl
    rw [hstep, ih, Call.apply, Function.update_apply, List.map_cons, List.mem_cons]
    by_cases hk : k = x.1
    · simp [hk]
    · simp [hk]

/-- Insertions never panic, and leave every inner node below the root with two keys. -/
theorem insertions_run (entries : List (Key × Bytes × UInt64 × UInt64)) (s : Store) {n : Node}
    {ts : Fin 16 → EntryTrie} {m : Contents}
    (hn : Represents keccak Stale Backing.memory nkeypieces n (.branch ts))
    (hm : Holds (.branch ts) m) (htight : ∀ j, (ts j).Tight 15) :
    ∃ n' ts', execAll keccak (insertions entries) s n = .ok (n', s)
      ∧ Represents keccak Stale Backing.memory nkeypieces n' (.branch ts')
      ∧ Holds (.branch ts') (Contents.after (insertions entries) m) ∧ ∀ j, (ts' j).Tight 15 := by
  induction entries generalizing n ts m with
  | nil => exact ⟨n, ts, rfl, hn, hm, htight⟩
  | cons x entries ih =>
    obtain ⟨k, v, sb, bn⟩ := x
    obtain ⟨n₁, hins, hn₁⟩ := insert_represents (Backing.memory_serves Stale s.getChunk) le_rfl
      v sb bn hn hm.wf (num_div_top k)
    have hm₁ := hm.upsert k (updateEntry v sb bn)
    have hchild := Trie.tight_upsert (updateEntry v sb bn) (Trie.div_pow_eq (num_div_top k))
      (hm.wf (Trie.digit 15 (num k))) (htight _)
    obtain ⟨n', ts', hx, hrest⟩ := ih hn₁ hm₁ (Trie.tight_update htight hchild)
    refine ⟨n', ts', ?_, hrest⟩
    rw [← hx]
    simp only [insertions, List.map_cons, execAll, Call.exec, SparseMerkleTree.insert, hins, bind,
      Except.bind]

/-- A number that is found below a child of the root is a key of the contents. -/
theorem Holds.key_of_child {ts : Fin 16 → EntryTrie} {m : Contents} (hm : Holds (.branch ts) m)
    {j : Fin 16} {a : ℕ} (ha : Trie.find 15 a (ts j) ≠ none) : ∃ k, num k = a ∧ m k ≠ none := by
  have hdiv : a / 16 ^ 15 = 16 * 0 + j := Trie.div_of_find (hm.wf j) ha
  have hlt : a < 2 ^ 64 := by
    have hj := j.isLt
    have hdm := Nat.div_add_mod a (16 ^ 15)
    have hmod := Nat.mod_lt a (show 0 < 16 ^ 15 by norm_num)
    omega
  have hnum := num_keyOf hlt
  refine ⟨keyOf a, hnum, ?_⟩
  rw [← hm.find_eq, hnum, nkeypieces, Trie.find_branch, Trie.digit_of_div hdiv]
  exact ha

/-- Terminals at the bottom are pairs of keys that differ in the last piece only. -/
theorem shallow_iff {ts : Fin 16 → EntryTrie} {m : Contents} (hm : Holds (.branch ts) m)
    (htight : ∀ j, (ts j).Tight 15) :
    Trie.Shallow nkeypieces (.branch ts)
      ↔ ∀ k k', m k ≠ none → m k' ≠ none → k ≠ k' → ∃ i < nkeypieces - 1,
        keypiece k i ≠ keypiece k' i := by
  refine ⟨fun hs k k' hk hk' hne => ?_, fun h => ?_⟩
  · by_contra hsame
    push Not at hsame
    rw [← hm.find_eq] at hk hk'
    exact hne (num_inj (Trie.eq_of_shallow hm.wf hs hk hk' ((pieces_eq_iff k k').mp hsame)))
  · by_contra hs
    obtain ⟨j, hj⟩ := not_forall.mp hs
    obtain ⟨a, a', hne, ha, ha', hd⟩ := Trie.exists_pair_of_not_shallow (hm.wf j) (htight j) hj
    obtain ⟨k, rfl, hk⟩ := hm.key_of_child ha
    obtain ⟨k', rfl, hk'⟩ := hm.key_of_child ha'
    obtain ⟨i, hi, hpiece⟩ := h k k' hk hk' fun heq => hne (by rw [heq])
    exact hpiece ((pieces_eq_iff k k').mpr hd i hi)

/-- After insertions into a new tree, `Flush` returns exactly when any two different keys among
them differ before their last piece. -/
theorem flush_returns_iff (entries : List (Key × Bytes × UInt64 × UInt64)) (s : Store) :
    (∃ n n' writes, execAll keccak (insertions entries) s SparseMerkleTree.new = .ok (n, s)
        ∧ SparseMerkleTree.flush keccak s.getChunk n = .ok (n', writes))
      ↔ ∀ k ∈ entries.map (·.1), ∀ k' ∈ entries.map (·.1), k ≠ k' →
          ∃ i < nkeypieces - 1, keypiece k i ≠ keypiece k' i := by
  have hnew : Represents keccak Stale Backing.memory nkeypieces SparseMerkleTree.new
      (.branch fun _ => .nil) := new_represents trivial id
  obtain ⟨n, ts, hx, hn, hm, htight⟩ := insertions_run entries s hnew holds_empty
    (fun _ => Trie.tight_nil _)
  have hmem : ∀ k, Contents.after (insertions entries) Contents.empty k ≠ none
      ↔ k ∈ entries.map (·.1) := by
    intro k
    rw [after_insertions_ne_none]
    simp [Contents.empty]
  -- the trie is tight, so its depth tells how far keys share their pieces
  have hiff := shallow_iff hm htight
  simp only [hmem] at hiff
  rcases treeFlush_represents (Backing.memory_serves Stale s.getChunk) hn with
    ⟨hs, n', writes, hf, -⟩ | ⟨hs, e, hf⟩
  · refine ⟨fun _ k hk k' hk' hne => hiff.mp hs k k' hk hk' hne, fun _ => ?_⟩
    exact ⟨n, n', _, hx, hf⟩
  · refine ⟨fun ⟨n₁, n', writes, hx₁, hf₁⟩ => ?_, fun h => ?_⟩
    · rw [hx] at hx₁
      obtain ⟨rfl, -⟩ := Prod.mk.inj (Except.ok.inj hx₁)
      rw [hf] at hf₁
      cases hf₁
    · exact (hs (hiff.mpr fun k k' hk hk' hne => h k hk k' hk' hne)).elim

theorem flush_panics : ∃ n,
    execAll (fun _ => zeroHash) [.insert zeroKey (Bytes.zeros 32) 0 0,
      .insert (keyOf 1) (Bytes.zeros 32) 0 0] [] SparseMerkleTree.new = .ok (n, [])
    ∧ SparseMerkleTree.flush (fun _ => zeroHash) (Store.getChunk []) n = .error .indexOutOfRange :=
  ⟨_, rfl, rfl⟩

end GoPlasma.Smt
