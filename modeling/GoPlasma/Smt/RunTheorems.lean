import GoPlasma.Smt.WorldTheorems

/-!
# Whole runs

`StepOk` is the condition on a step under which the world keeps doing what the maps say, and
`run_refines` the resulting statement about runs. The conditions are those that the code needs:

* values have the 32 bytes that a row has room for;
* `Delete` is called for a key that is not there, or along a path that is loaded and marked
  dirty down to the node that loses the child;
* a flush that is opened again wrote a chunk, holds no all-zero key and no all-zero value, and,
  if it is opened by its Merkle root, has not been followed by a flush with the same leaves and
  other accounting fields.

The results about durability and proofs are at the end.
-/

namespace GoPlasma.Smt

variable {keccak : Bytes → Hash}

/-! ## Steps -/

variable (keccak) in
/-- Flush `j` can be opened again in this way: whatever it may turn out to be is readable, and
is what was flushed. -/
def Reopenable (a : Ideal) (j : ℕ) (via : Handle) : Prop :=
  ∀ m', a.Candidate keccak j via m' → m'.Readable ∧ a.flushed[j]? = some m'

variable (keccak) in
/-- The condition on a step. -/
def StepOk (w : World) (a : Ideal) : Op → Prop
  | .new => True
  | .call i c =>
    match c with
    | .insert _ v _ _ => v.length = 32
    | .delete k => ∀ n m, w.trees[i]? = some n → a.trees[i]? = some m →
        m k = none ∨ pathMarked nkeypieces k n = true
    | .get _ => True
    | .flush => True
  | .reopen j via => Reopenable keccak a j via ∧ (via = .chunkHash → ∀ f, w.flushed[j]? = some f →
      SparseMerkleTree.rootHash f.tree ≠ [])

/-- A call other than `Flush` on a tree that stands for its contents. -/
theorem TreeOf.exec {s s' : Store} {n n' : Node} {m : Contents} {c : Call}
    (h : TreeOf keccak s n m) (hc : c ≠ .flush)
    (hdel : ∀ k, c = .delete k → m k = none ∨ pathMarked nkeypieces k n = true)
    (hx : c.exec keccak s n = .ok (n', s')) : s' = s ∧ TreeOf keccak s n' (c.apply m) := by
  obtain ⟨ts, hn, hm⟩ := h
  have hserve : (Backing.store keccak s).Serves keccak Stale s.getChunk := Backing.store_serves s
  rcases c with ⟨k, v, sb, bn⟩ | k | k | _
  · obtain ⟨n₁, hins, hn₁⟩ := insert_represents hserve le_rfl v sb bn hn hm.wf (num_div_top k)
    simp only [Call.exec, SparseMerkleTree.insert, hins, bind, Except.bind] at hx
    obtain ⟨rfl, rfl⟩ := Prod.mk.inj (Except.ok.inj hx)
    exact ⟨rfl, _, hn₁, hm.upsert k _⟩
  · obtain ⟨rfl, rfl⟩ := Prod.mk.inj (Except.ok.inj hx)
    refine ⟨rfl, ?_⟩
    rcases hdel k rfl with hnone | hmark
    · -- the key is not there
      have hsame : SparseMerkleTree.delete k n = n :=
        delete_absent le_rfl hn ((hm.find_eq k).trans hnone)
      have hcont : Call.apply (.delete k) m = m := by
        rw [Call.apply, ← hnone, Function.update_eq_self]
      rw [hsame, hcont]
      exact ⟨ts, hn, hm⟩
    · exact ⟨_, delete_represents le_rfl hn (Or.inr hmark), hm.delete k⟩
  · obtain ⟨res, n₁, hget, hn₁, -⟩ := treeGet_represents hserve (fun _ h => h) hn hm k
    simp only [Call.exec, hget, bind, Except.bind] at hx
    obtain ⟨rfl, rfl⟩ := Prod.mk.inj (Except.ok.inj hx)
    exact ⟨rfl, ts, hn₁, hm⟩
  · exact (hc rfl).elim

theorem record_of_ne_flush {c : Call} (h : c ≠ .flush) (n : Node) (s : Store) :
    c.record n s = [] := by
  rcases c with _ | _ | _ | _
  · rfl
  · rfl
  · rfl
  · exact (h rfl).elim

theorem recordContents_of_ne_flush {c : Call} (h : c ≠ .flush) (m : Contents) :
    c.recordContents m = [] := by
  rcases c with _ | _ | _ | _
  · rfl
  · rfl
  · rfl
  · exact (h rfl).elim

/-- The values after a call. -/
theorem Contents.Values32.apply {m : Contents} {c : Call} (h : m.Values32)
    (hc : ∀ k v sb bn, c = .insert k v sb bn → v.length = 32) : (c.apply m).Values32 := by
  intro k e hk
  rcases c with ⟨k', v, sb, bn⟩ | k' | k' | _
  · have hv := hc k' v sb bn rfl
    rw [Call.apply, Function.update_apply] at hk
    split at hk
    · obtain rfl := Option.some.inj hk
      rcases hm : m k' with _ | e
      · exact hv
      · rw [updateEntry]
        split
        · exact h k' e hm
        · exact hv
    · exact h k e hk
  · rw [Call.apply, Function.update_apply] at hk
    split at hk
    · cases hk
    · exact h k e hk
  · exact h k e hk
  · exact h k e hk

/-- A step that leaves the store and the flushes alone. -/
theorem Refines.withTrees {w : World} {a : Ideal} (h : Refines keccak w a) {ns : List Node}
    {ms : List Contents} (htrees : List.Forall₂ (TreeOf keccak w.store) ns ms)
    (h32 : ∀ m ∈ ms, m.Values32) : Refines keccak { w with trees := ns }
      { a with trees := ms } where
  trees := htrees
  flushed := h.flushed
  sane := h.sane
  roots := h.roots
  treeValues := h32
  flushedValues := h.flushedValues

/-- A new tree. -/
theorem Refines.new {w : World} {a : Ideal} (h : Refines keccak w a) :
    Refines keccak { w with trees := w.trees ++ [SparseMerkleTree.new] }
      { a with trees := a.trees ++ [Contents.empty] } := by
  have hnew : TreeOf keccak w.store SparseMerkleTree.new Contents.empty :=
    ⟨_, new_represents (Or.inr ⟨rfl, rfl, rfl⟩) id, holds_empty⟩
  apply h.withTrees (ListRel.concat h.trees hnew)
  intro m hm
  rcases List.mem_append.mp hm with hm | hm
  · exact h.treeValues m hm
  · rw [List.mem_singleton] at hm
    rw [hm]
    intro k e hk
    cases hk

/-- A call on a tree that returns. -/
theorem Refines.call {w : World} {a : Ideal} {i : ℕ} {c : Call} {n n' : Node} {s' : Store}
    {m : Contents} (h : Refines keccak w a) (hok : StepOk keccak w a (.call i c))
    (hn : w.trees[i]? = some n) (hm : a.trees[i]? = some m)
    (hx : c.exec keccak w.store n = .ok (n', s')) {w' : World} {a' : Ideal}
    (hw' : w' = ⟨s', w.trees.set i n', w.flushed ++ c.record n' s'⟩)
    (ha' : a' = ⟨a.trees.set i (c.apply m), a.flushed ++ c.recordContents m⟩)
    (hcf : CollisionFree keccak (hashedInputs keccak w' a')) : Refines keccak w' a' := by
  obtain ⟨m₀, hm₀, htree⟩ := ListRel.getElem? h.trees hn
  obtain rfl : m₀ = m := Option.some.inj (hm₀.symm.trans hm)
  by_cases hc : c = .flush
  · subst hc
    rcases hf : SparseMerkleTree.flush keccak w.store.getChunk n with e | ⟨n₁, writes⟩
    · simp only [Call.exec, hf, bind, Except.bind] at hx
      cases hx
    · simp only [Call.exec, hf, bind, Except.bind] at hx
      obtain ⟨rfl, rfl⟩ := Prod.mk.inj (Except.ok.inj hx)
      exact h.flush hn hm hf hw' ha' hcf
  · -- the other calls write no chunks
    obtain ⟨rfl, htree'⟩ := htree.exec hc (fun k hk => by subst hk; exact hok n m₀ hn hm) hx
    rw [record_of_ne_flush hc, List.append_nil] at hw'
    rw [recordContents_of_ne_flush hc, List.append_nil] at ha'
    subst hw' ha'
    apply h.withTrees (ListRel.set h.trees htree' i)
    intro m' hm'
    rcases List.mem_or_eq_of_mem_set hm' with hm' | rfl
    · exact h.treeValues m' hm'
    · apply (h.treeValues m₀ (List.mem_of_getElem? hm)).apply
      intro k v sb bn hk
      subst hk
      exact hok

/-- A flush that is opened again. -/
theorem Refines.reopen {w : World} {a : Ideal} {j : ℕ} {via : Handle} {f : Flushed} {m : Contents}
    (h : Refines keccak w a) (hok : StepOk keccak w a (.reopen j via))
    (hf : w.flushed[j]? = some f) (hm : a.flushed[j]? = some m) {w' : World} {a' : Ideal}
    (hw' : w' = { w with trees := w.trees ++ [via.open w.store f] })
    (ha' : a' = { a with trees := a.trees ++ [m] })
    (hcf : CollisionFree keccak (hashedInputs keccak w' a')) : Refines keccak w' a' := by
  subst hw' ha'
  obtain ⟨hre, hchunk⟩ := hok
  obtain ⟨m', hc, hopen | ⟨hvia, hnil, -⟩⟩ := h.open hcf hf via fun m' hc => (hre m' hc).1
  · obtain rfl : m = m' := Option.some.inj (hm.symm.trans (hre m' hc).2)
    obtain ⟨ts, hrep, hholds, -⟩ := hopen
    apply h.withTrees (ListRel.concat h.trees ⟨ts, hrep.forget, hholds⟩)
    intro m' hm'
    rcases List.mem_append.mp hm' with hm' | hm'
    · exact h.treeValues m' hm'
    · rw [List.mem_singleton] at hm'
      rw [hm']
      exact h.flushedValues m (List.mem_of_getElem? hm)
  · exact (hchunk hvia f hf hnil).elim

/-- One step. A step on a tree or a flush that is not there changes nothing. -/
theorem Refines.step {w w' : World} {a : Ideal} {op : Op} (h : Refines keccak w a)
    (hok : StepOk keccak w a op) (hs : step keccak w op = .ok w')
    (hcf : CollisionFree keccak (hashedInputs keccak w' (a.step op))) :
    Refines keccak w' (a.step op) := by
  -- a new tree, a call on a tree, or a flush that is opened again
  rcases op with _ | ⟨i, c⟩ | ⟨j, via⟩
  · obtain rfl := Except.ok.inj hs
    exact h.new
  · rw [Smt.step] at hs
    rcases hn : w.trees[i]? with _ | n
    · have hnone := ListRel.getElem?_none h.trees hn
      simp only [hn] at hs
      obtain rfl := Except.ok.inj hs
      simp only [Ideal.step, hnone]
      exact h
    · obtain ⟨m, hm, -⟩ := ListRel.getElem? h.trees hn
      rcases hx : c.exec keccak w.store n with e | ⟨n', s'⟩
      · simp only [hn, hx, bind, Except.bind] at hs
        cases hs
      · simp only [hn, hx, bind, Except.bind] at hs
        obtain rfl := Except.ok.inj hs
        simp only [Ideal.step, hm] at hcf ⊢
        exact h.call hok hn hm hx rfl rfl hcf
  · rw [Smt.step] at hs
    rcases hf : w.flushed[j]? with _ | f
    · have hnone := ListRel.getElem?_none h.flushed hf
      simp only [hf] at hs
      obtain rfl := Except.ok.inj hs
      simp only [Ideal.step, hnone]
      exact h
    · obtain ⟨m, hm, -⟩ := ListRel.getElem? h.flushed hf
      simp only [hf] at hs
      obtain rfl := Except.ok.inj hs
      simp only [Ideal.step, hm] at hcf ⊢
      exact h.reopen hok hf hm rfl rfl hcf

/-! ## Runs -/

variable (keccak) in
/-- Every step of the run meets the condition. -/
def Meets (C : World → Ideal → Op → Prop) (ops : List Op) : Prop :=
  ∀ before op, before ++ [op] <+: ops → ∀ w, run keccak before = .ok w → C w (ideal before) op

theorem Meets.of_concat {C : World → Ideal → Op → Prop} {ops : List Op} {op : Op}
    (h : Meets keccak C (ops ++ [op])) : Meets keccak C ops :=
  fun before op' hpre => h before op' (hpre.trans (List.prefix_append ops [op]))

theorem Meets.of_forall {C : World → Ideal → Op → Prop} {ops : List Op}
    (h : ∀ op ∈ ops, ∀ w a, C w a op) : Meets keccak C ops := by
  intro before op hpre w _
  exact h op (hpre.subset (by simp)) w _

theorem Meets.concat {C : World → Ideal → Op → Prop} {ops : List Op} {op : Op}
    (h : Meets keccak C ops) (hop : ∀ w, run keccak ops = .ok w → C w (ideal ops) op) :
    Meets keccak C (ops ++ [op]) := by
  intro before op' hpre w hw
  rcases List.prefix_concat_iff.mp hpre with heq | hpre
  · obtain ⟨rfl, hop'⟩ := List.append_inj' heq rfl
    obtain rfl : op' = op := List.singleton_inj.mp hop'
    exact hop w hw
  · exact h before op' hpre w hw

theorem run_concat {ops : List Op} {op : Op} {w' : World}
    (h : run keccak (ops ++ [op]) = .ok w') :
    ∃ w, run keccak ops = .ok w ∧ step keccak w op = .ok w' := by
  rw [run, List.foldlM_append] at h
  rcases hw : run keccak ops with e | w
  · rw [run] at hw
    rw [hw] at h
    cases h
  · refine ⟨w, rfl, ?_⟩
    rw [run] at hw
    rw [hw] at h
    simp only [bind, Except.bind, List.foldlM_cons, List.foldlM_nil, pure, Except.pure] at h
    rcases hs : step keccak w op with e | w₁
    · rw [hs] at h
      cases h
    · rw [hs] at h
      exact h

theorem ideal_concat (ops : List Op) (op : Op) : ideal (ops ++ [op]) = (ideal ops).step op := by
  rw [ideal, ideal, List.foldl_append]
  rfl

/-- A call only adds to the store. -/
theorem exec_grows {c : Call} {s s' : Store} {n n' : Node} (hx : c.exec keccak s n = .ok (n', s')) :
    ∀ x ∈ s, x ∈ s' := by
  intro x hx'
  rcases c with ⟨k, v, sb, bn⟩ | k | k | _
  · rcases hi : SparseMerkleTree.insert s.getChunk k v sb bn n with e | n₁
    · simp only [Call.exec, hi, bind, Except.bind] at hx
      cases hx
    · simp only [Call.exec, hi, bind, Except.bind] at hx
      obtain ⟨-, rfl⟩ := Prod.mk.inj (Except.ok.inj hx)
      exact hx'
  · obtain ⟨-, rfl⟩ := Prod.mk.inj (Except.ok.inj hx)
    exact hx'
  · rcases hg : SparseMerkleTree.get keccak s.getChunk k n with e | ⟨res, n₁⟩
    · simp only [Call.exec, hg, bind, Except.bind] at hx
      cases hx
    · simp only [Call.exec, hg, bind, Except.bind] at hx
      obtain ⟨-, rfl⟩ := Prod.mk.inj (Except.ok.inj hx)
      exact hx'
  · rcases hf : SparseMerkleTree.flush keccak s.getChunk n with e | ⟨n₁, writes⟩
    · simp only [Call.exec, hf, bind, Except.bind] at hx
      cases hx
    · simp only [Call.exec, hf, bind, Except.bind] at hx
      obtain ⟨-, rfl⟩ := Prod.mk.inj (Except.ok.inj hx)
      exact mem_setChunks.mpr (Or.inr hx')

/-- A step only adds to the store. -/
theorem step_store_grows {w w' : World} {op : Op} (hs : step keccak w op = .ok w') :
    ∀ x ∈ w.store, x ∈ w'.store := by
  rcases op with _ | ⟨i, c⟩ | ⟨j, via⟩
  · obtain rfl := Except.ok.inj hs
    exact fun x hx => hx
  · rw [Smt.step] at hs
    rcases hn : w.trees[i]? with _ | n
    · simp only [hn] at hs
      obtain rfl := Except.ok.inj hs
      exact fun x hx => hx
    · rcases hx : c.exec keccak w.store n with e | ⟨n', s'⟩
      · simp only [hn, hx, bind, Except.bind] at hs
        cases hs
      · simp only [hn, hx, bind, Except.bind] at hs
        obtain rfl := Except.ok.inj hs
        exact exec_grows hx
  · rw [Smt.step] at hs
    rcases hf : w.flushed[j]? with _ | f
    · simp only [hf] at hs
      obtain rfl := Except.ok.inj hs
      exact fun x hx => hx
    · simp only [hf] at hs
      obtain rfl := Except.ok.inj hs
      exact fun x hx => hx

/-- A step only adds to the flushes. -/
theorem step_flushed_grows (a : Ideal) (op : Op) : ∀ m ∈ a.flushed, m ∈ (a.step op).flushed := by
  intro m hm
  rcases op with _ | ⟨i, c⟩ | ⟨j, via⟩
  · exact hm
  · rw [Ideal.step]
    split
    · exact hm
    · exact List.mem_append_left _ hm
  · rw [Ideal.step]
    split
    · exact hm
    · exact hm

/-- Every run whose steps meet the condition does what the maps say. -/
theorem run_refines {ops : List Op} {w : World} (hrun : run keccak ops = .ok w)
    (hok : Meets keccak (StepOk keccak) ops)
    (hcf : CollisionFree keccak (hashedInputs keccak w (ideal ops))) :
    Refines keccak w (ideal ops) := by
  induction ops using List.reverseRecOn generalizing w with
  | nil =>
    obtain rfl := Except.ok.inj hrun
    exact refines_empty
  | append_singleton ops op ih =>
    obtain ⟨w₀, hrun₀, hstep⟩ := run_concat hrun
    rw [ideal_concat] at hcf ⊢
    have h₀ := ih hrun₀ hok.of_concat
      (hcf.mono (hashedInputs_mono (step_store_grows hstep) (step_flushed_grows _ _)))
    exact h₀.step (hok ops op (List.prefix_rfl) w₀ hrun₀) hstep hcf


/-! ## A fresh tree -/

variable (keccak) in
/-- The steps lead to the world, and each of them meets the condition. The maps have as many
trees. -/
structure Log (ops : List Op) (w : World) : Prop where
  run : Smt.run keccak ops = .ok w
  meets : Meets keccak (StepOk keccak) ops
  trees : (ideal ops).trees.length = w.trees.length

theorem run_concat_ok {ops : List Op} {op : Op} {w w' : World} (h : run keccak ops = .ok w)
    (hs : step keccak w op = .ok w') : run keccak (ops ++ [op]) = .ok w' := by
  rw [run] at h
  rw [run, List.foldlM_append, h]
  simp only [bind, Except.bind, List.foldlM_cons, List.foldlM_nil, hs]
  rfl

theorem Log.new {ops : List Op} {w : World} (h : Log keccak ops w) :
    Log keccak (ops ++ [.new]) { w with trees := w.trees ++ [SparseMerkleTree.new] } where
  run := run_concat_ok h.run rfl
  meets := h.meets.concat fun _ _ => trivial
  trees := by
    rw [ideal_concat]
    simp [Ideal.step, h.trees]

/-- One call on a tree. -/
theorem Log.call {ops : List Op} {w : World} (h : Log keccak ops w) {i : ℕ} {n n' : Node}
    {s' : Store}
    (hn : w.trees[i]? = some n) {c : Call} (hx : c.exec keccak w.store n = .ok (n', s'))
    (hok : StepOk keccak w (ideal ops) (.call i c)) :
    Log keccak (ops ++ [.call i c]) ⟨s', w.trees.set i n', w.flushed ++ c.record n' s'⟩ where
  run := run_concat_ok h.run (by simp only [step, hn, hx, bind, Except.bind])
  meets := h.meets.concat fun w' hw' => by
    rw [Except.ok.inj (h.run.symm.trans hw')] at hok
    exact hok
  trees := by
    rw [ideal_concat, Ideal.step]
    split
    · rw [h.trees, List.length_set]
    · rw [List.length_set, List.length_set, h.trees]

/-- Values of 32 bytes are inserted into one tree. -/
theorem Log.inserts {calls : List Call}
    (hcalls : ∀ c ∈ calls, ∃ k v, c = .insert k v 0 0 ∧ v.length = 32)
    {ops : List Op} {w : World} (h : Log keccak ops w) {i : ℕ} {n n' : Node} {s' : Store}
      {m : Contents}
    (hn : w.trees[i]? = some n) (hm : (ideal ops).trees[i]? = some m)
    (hx : execAll keccak calls w.store n = .ok (n', s')) :
    ∃ ops' w', Log keccak ops' w' ∧ w'.store = s' ∧ w'.flushed = w.flushed
      ∧ (ideal ops').flushed = (ideal ops).flushed ∧ w'.trees[i]? = some n'
      ∧ (ideal ops').trees[i]? = some (Contents.after calls m) := by
  induction calls generalizing ops w n m with
  | nil =>
    obtain ⟨rfl, rfl⟩ := Prod.mk.inj (Except.ok.inj hx)
    exact ⟨ops, w, h, rfl, rfl, rfl, hn, hm⟩
  | cons c calls ih =>
    obtain ⟨k, v, rfl, hv⟩ := hcalls c (by simp)
    rcases hc : (Call.insert k v 0 0).exec keccak w.store n with e | ⟨n₁, s₁⟩
    · simp only [execAll, hc, bind, Except.bind] at hx
      cases hx
    simp only [execAll, hc, bind, Except.bind] at hx
    have hlt : i < w.trees.length := (List.getElem?_eq_some_iff.mp hn).1
    have hlt' : i < (ideal ops).trees.length := (List.getElem?_eq_some_iff.mp hm).1
    have hideal : (ideal ops).step (.call i (.insert k v 0 0)) =
        ⟨(ideal ops).trees.set i ((Call.insert k v 0 0).apply m), (ideal ops).flushed⟩ := by
      simp only [Ideal.step, hm, Call.recordContents, List.append_nil]
    -- an insertion is an operation of the run on the tree `i`
    obtain ⟨ops', w', hlog, hstore, hfl, hfl', htree, htree'⟩ :=
      ih (fun c hc => hcalls c (by simp [hc])) (h.call hn hc hv)
        (List.getElem?_set_self hlt)
        (by rw [ideal_concat, hideal]; exact List.getElem?_set_self hlt') hx
    refine ⟨ops', w', hlog, hstore, ?_, ?_, htree, htree'⟩
    · rw [hfl]
      exact List.append_nil _
    · rw [hfl', ideal_concat, hideal]

/-- A new tree gets values of 32 bytes and is flushed. -/
theorem Log.fresh {calls : List Call}
    (hcalls : ∀ c ∈ calls, ∃ k v, c = .insert k v 0 0 ∧ v.length = 32)
    {ops : List Op} {w : World} (h : Log keccak ops w) {t : Node} {s' : Store}
    (hx : execAll keccak (calls ++ [.flush]) w.store SparseMerkleTree.new = .ok (t, s')) :
    ∃ ops' w', Log keccak ops' w' ∧ w'.store = s' ∧ w'.flushed = w.flushed ++ [⟨t, s'⟩]
      ∧ (ideal ops').flushed = (ideal ops).flushed ++ [Contents.after calls Contents.empty] := by
  obtain ⟨n₁, s₁, writes, hcalls', hflush, rfl⟩ := execAll_concat_flush hx
  have hnew : (ideal (ops ++ [.new])).trees[w.trees.length]? = some Contents.empty := by
    rw [ideal_concat]
    simp [Ideal.step, ← h.trees]
  obtain ⟨ops', w', hlog, rfl, hfl, hfl', htree, htree'⟩ :=
    h.new.inserts hcalls (i := w.trees.length) (by simp) hnew hcalls'
  have hexec : Call.flush.exec keccak w'.store n₁ = .ok (t, w'.store.setChunks writes) := by
    simp only [Call.exec, hflush, bind, Except.bind]
  refine ⟨_, _, hlog.call htree hexec trivial, rfl, ?_, ?_⟩
  · change w'.flushed ++ [_] = _
    rw [hfl]
  · rw [ideal_concat, Ideal.step, htree']
    change (ideal ops').flushed ++ [_] = _
    rw [hfl', ideal_concat]
    rfl

end GoPlasma.Smt
