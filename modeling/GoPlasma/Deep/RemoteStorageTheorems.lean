import GoPlasma.Deep.RemoteStorage

/-!
# What a nil error of the storage means

In local mode `SetChunk`, `SetChunkBatch` and `Flush` return the errors of leveldb. In the other
mode they tolerate them, on the assumption of a write to the cloud store that is not made, so that a
nil error does not mean that anything was written: it was exactly if leveldb did not fail
(`Queued.kept_iff`). `GetChunkBatch` gives every element an empty ID and calls it found, whatever
leveldb says.
-/

namespace GoPlasma.Deep

/-! ## The last value -/

/-- The last value in a list of writes. -/
def lastValue (l : List (Bytes × Bytes)) (chunkID : Bytes) : Option Bytes :=
  l.reverse.lookup chunkID

theorem lookup_setChunks (db : Smt.Store) (l : List (Bytes × Bytes)) (chunkID : Bytes) :
    (db.setChunks l).lookup chunkID = (lastValue l chunkID).or (db.lookup chunkID) :=
  List.lookup_append

theorem lastValue_concat (l : List (Bytes × Bytes)) (x : Bytes × Bytes) (chunkID : Bytes) :
    lastValue (l ++ [x]) chunkID = if chunkID = x.1 then some x.2 else lastValue l chunkID := by
  rw [lastValue, List.reverse_concat, List.lookup_cons]
  by_cases h : chunkID = x.1
  · rw [if_pos h, beq_iff_eq.mpr h]
  · rw [if_neg h, beq_eq_false_iff_ne.mpr h]
    rfl

theorem lookup_isSome_of_mem {l : List (Bytes × Bytes)} {x : Bytes × Bytes} (hx : x ∈ l) :
    ∃ v, l.lookup x.1 = some v := by
  rcases h : l.lookup x.1 with _ | v
  · have hne := List.lookup_eq_none_iff.mp h x hx
    simp at hne
  · exact ⟨v, rfl⟩

theorem exists_lastValue {l : List (Bytes × Bytes)} (h : l ≠ []) :
    ∃ chunkID v, lastValue l chunkID = some v := by
  obtain ⟨x, hx⟩ := List.exists_mem_of_ne_nil l h
  exact ⟨x.1, lookup_isSome_of_mem (List.mem_reverse.mpr hx)⟩

/-- A value in the place of another. -/
theorem lookup_replace (l : List (Bytes × Bytes)) (k v k' : Bytes) :
    (l.map fun x => if x.1 = k then (x.1, v) else x).lookup k' =
      if k' = k then (l.lookup k).map fun _ => v else l.lookup k' := by
  induction l with
  | nil => simp
  | cons x l ih =>
    obtain ⟨a, b⟩ := x
    rw [List.map_cons, List.lookup_cons, List.lookup_cons, List.lookup_cons, ih]
    by_cases ha : a = k
    · subst ha
      by_cases hk : k' = a
      · simp [hk]
      · simp [hk, beq_eq_false_iff_ne.mpr hk]
    · have hka : (k == a) = false := beq_eq_false_iff_ne.mpr fun h => ha h.symm
      by_cases hk : k' = k
      · simp [hk, ha, hka]
      · simp [hk, ha]

/-! ## Writing -/

variable {s s' : RemoteStorage} {fault : Fault} {err : Option String}

/-- The database after a write of a batch. -/
def written (fault : Fault) (l : List (Bytes × Bytes)) (ldb : Option Smt.Store) :
    Option Smt.Store :=
  if fault = none then ldb.map fun db => db.setChunks l else ldb

namespace RemoteStorage

theorem getChunk_eq (s : RemoteStorage) (chunkID v : Bytes) :
    s.getChunk noFault chunkID = ⟨v, true, none⟩ ↔
      ∃ db, s.ldb = some db ∧ db.lookup chunkID = some v := by
  unfold getChunk getChunkLocal ldbGet noFault
  rcases s.ldb with _ | db
  · simp
  · rcases hl : db.lookup chunkID with _ | v'
    · simp [hl]
    · simp [hl]

theorem setChunkLocal_ldb (fault : Fault) (chunkID chunk : Bytes) (s : RemoteStorage) :
    (s.setChunkLocal fault chunkID chunk).2 =
      { s with ldb := written fault [(chunkID, chunk)] s.ldb } := by
  unfold setChunkLocal written
  obtain ⟨queue, _ | db, localOnly⟩ := s
  · simp
  · rcases fault with _ | e
    · rfl
    · rfl

theorem setChunkBatchLocal_ldb (fault : Fault) (chunks : List Chunk) (s : RemoteStorage) :
    (s.setChunkBatchLocal fault chunks).2 =
      { s with ldb := written fault (chunks.map Chunk.pair) s.ldb } := by
  unfold setChunkBatchLocal written
  obtain ⟨queue, _ | db, localOnly⟩ := s
  · simp
  · rcases fault with _ | e
    · rfl
    · rfl

theorem setChunkLocal_err (fault : Fault) (chunkID chunk : Bytes) (s : RemoteStorage) :
    (s.setChunkLocal fault chunkID chunk).1 = none ↔ s.ldb.isSome = true ∧ fault = none := by
  unfold setChunkLocal
  rcases hldb : s.ldb with _ | db
  · simp
  · rcases fault with _ | e
    · simp
    · simp

theorem setChunkBatchLocal_err (fault : Fault) (chunks : List Chunk) (s : RemoteStorage) :
    (s.setChunkBatchLocal fault chunks).1 = none ↔ s.ldb.isSome = true ∧ fault = none := by
  unfold setChunkBatchLocal
  rcases hldb : s.ldb with _ | db
  · simp
  · rcases fault with _ | e
    · simp
    · simp

theorem setChunk_eq (fault : Fault) (chunkID chunk : Bytes) (s : RemoteStorage) :
    s.setChunk fault chunkID chunk =
      (if s.localOnly then (s.setChunkLocal fault chunkID chunk).1 else none,
        { s with ldb := written fault [(chunkID, chunk)] s.ldb }) := by
  rw [← setChunkLocal_ldb]
  rfl

theorem setChunkBatch_eq (fault : Fault) (chunks : List Chunk) (s : RemoteStorage) :
    s.setChunkBatch fault chunks =
      (if s.localOnly then (s.setChunkBatchLocal fault chunks).1 else none,
        { s with ldb := written fault (chunks.map Chunk.pair) s.ldb }) := by
  rw [← setChunkBatchLocal_ldb]
  rfl

end RemoteStorage

/-! ## Runs -/

/-- The calls that change the storage. -/
inductive Call where
  | queueChunk (chunkID chunk : Bytes)
  | setChunk (chunkID chunk : Bytes)
  | setChunkBatch (chunks : List Chunk)
  | flush

/-- A call, with the error of its write; `QueueChunk` always returns nil. -/
def Call.exec (fault : Fault) (s : RemoteStorage) : Call → Option String × RemoteStorage
  | .queueChunk chunkID chunk => (none, s.queueChunk chunkID chunk)
  | .setChunk chunkID chunk => s.setChunk fault chunkID chunk
  | .setChunkBatch chunks => s.setChunkBatch fault chunks
  | .flush => s.flush fault

/-- What has been queued and not flushed. -/
def Call.queued (queue : List (Bytes × Bytes)) (err : Option String) : Call → List (Bytes × Bytes)
  | .queueChunk chunkID chunk => queue ++ [(chunkID, chunk)]
  | .setChunk _ _ => queue
  | .setChunkBatch _ => queue
  | .flush => if err = none then [] else queue

/-- What a nil error of a call is about. -/
def Call.given (queue : List (Bytes × Bytes)) : Call → List (Bytes × Bytes)
  | .queueChunk _ _ => []
  | .setChunk chunkID chunk => [(chunkID, chunk)]
  | .setChunkBatch chunks => chunks.map Chunk.pair
  | .flush => queue

/-- The calls on a storage, with the list of all that was queued since the last `Flush` that
returned nil. -/
inductive Run (localOnly : Bool) (ldb : Option Smt.Store) :
    List (Bytes × Bytes) → RemoteStorage → Prop where
  | new : Run localOnly ldb [] ⟨[], ldb, localOnly⟩
  | call {queue : List (Bytes × Bytes)} {s s' : RemoteStorage} {fault : Fault} {c : Call}
      {err : Option String} (h : Run localOnly ldb queue s) (hc : c.exec fault s = (err, s')) :
      Run localOnly ldb (c.queued queue err) s'

/-- The queue has the last value of everything that was queued. -/
def Queued (queue : List (Bytes × Bytes)) (s : RemoteStorage) : Prop :=
  ∀ chunkID, lastValue (s.chunkQueue.map Chunk.pair) chunkID = lastValue queue chunkID

theorem Queued.queueChunk {queue : List (Bytes × Bytes)} (h : Queued queue s)
    (chunkID chunk : Bytes) :
    Queued (queue ++ [(chunkID, chunk)]) (s.queueChunk chunkID chunk) := by
  intro k
  rw [lastValue_concat, ← h]
  unfold RemoteStorage.queueChunk
  by_cases hdup : (s.chunkQueue.any fun c => decide (c.chunkID = chunkID)) = true
  · simp only [hdup, if_true]
    -- the value is replaced in its place, and there is one
    have hmap : (s.chunkQueue.map fun c => if c.chunkID = chunkID then
          { c with value := chunk } else c).map Chunk.pair =
        (s.chunkQueue.map Chunk.pair).map fun x => if x.1 = chunkID then (x.1, chunk) else x := by
      rw [List.map_map, List.map_map]
      refine List.map_congr_left fun c _ => ?_
      by_cases hid : c.chunkID = chunkID
      · simp [Chunk.pair, hid]
      · simp [Chunk.pair, hid]
    obtain ⟨c, hc, hid⟩ := List.any_eq_true.mp hdup
    have hmem : c.pair ∈ (s.chunkQueue.map Chunk.pair).reverse :=
      List.mem_reverse.mpr (List.mem_map_of_mem hc)
    obtain ⟨v, hv⟩ := lookup_isSome_of_mem hmem
    rw [show c.pair.1 = chunkID from of_decide_eq_true hid] at hv
    rw [hmap, lastValue, ← List.map_reverse, lookup_replace, hv]
    rfl
  · simp only [hdup]
    rw [if_neg Bool.false_ne_true, List.map_append, List.map_singleton, lastValue_concat]
    rfl

theorem RemoteStorage.flush_of_ne {fault : Fault} (h : s.chunkQueue ≠ []) :
    s.flush fault = ((s.setChunkBatch fault s.chunkQueue).1,
      if (s.setChunkBatch fault s.chunkQueue).1 = none then
        { (s.setChunkBatch fault s.chunkQueue).2 with chunkQueue := [] }
      else (s.setChunkBatch fault s.chunkQueue).2) := by
  rw [RemoteStorage.flush, if_neg h]
  rcases s.setChunkBatch fault s.chunkQueue with ⟨_ | e, s'⟩
  · rfl
  · rfl

theorem Queued.ne_nil {queue : List (Bytes × Bytes)} (h : Queued queue s) (hne : queue ≠ []) :
    s.chunkQueue ≠ [] := by
  intro hnil
  obtain ⟨chunkID, v, hv⟩ := exists_lastValue hne
  rw [← h, hnil] at hv
  cases hv

/-- What one call does: the database gets what the call is given, unless the write fails, and the
error of the write is returned in local mode. -/
theorem Call.exec_cases {queue : List (Bytes × Bytes)} {c : Call} (hq : Queued queue s)
    (hc : c.exec fault s = (err, s')) (hne : c.given queue ≠ []) :
    (∃ l, (∀ chunkID, lastValue l chunkID = lastValue (c.given queue) chunkID) ∧
        s'.ldb = written fault l s.ldb) ∧
      (err = none ↔ s.localOnly = false ∨ s.ldb.isSome = true ∧ fault = none) := by
  -- only local mode returns the error of the write
  have hmode : ∀ {e : Option String}, (e = none ↔ s.ldb.isSome = true ∧ fault = none) →
      ((if s.localOnly then e else none) = none ↔
        s.localOnly = false ∨ s.ldb.isSome = true ∧ fault = none) := by
    intro e he
    rcases s.localOnly with _ | _
    · simp
    · simpa using he
  cases c with
  | queueChunk chunkID chunk => exact (hne rfl).elim
  | setChunk chunkID chunk =>
    rw [Call.exec, RemoteStorage.setChunk_eq] at hc
    obtain ⟨rfl, rfl⟩ := Prod.mk.inj hc
    exact ⟨⟨_, fun _ => rfl, rfl⟩, hmode (RemoteStorage.setChunkLocal_err _ _ _ _)⟩
  | setChunkBatch chunks =>
    rw [Call.exec, RemoteStorage.setChunkBatch_eq] at hc
    obtain ⟨rfl, rfl⟩ := Prod.mk.inj hc
    exact ⟨⟨_, fun _ => rfl, rfl⟩, hmode (RemoteStorage.setChunkBatchLocal_err _ _ _)⟩
  | flush =>
    rw [Call.exec, RemoteStorage.flush_of_ne (hq.ne_nil hne), RemoteStorage.setChunkBatch_eq] at hc
    obtain ⟨rfl, rfl⟩ := Prod.mk.inj hc
    refine ⟨⟨s.chunkQueue.map Chunk.pair, hq, ?_⟩,
      hmode (RemoteStorage.setChunkBatchLocal_err _ _ _)⟩
    split_ifs
    · rfl
    · rfl
    · rfl
    · rfl

/-- The queue after a call. -/
theorem Queued.exec {queue : List (Bytes × Bytes)} {c : Call} (hq : Queued queue s)
    (hc : c.exec fault s = (err, s')) : Queued (c.queued queue err) s' := by
  cases c with
  | queueChunk chunkID chunk =>
    obtain ⟨rfl, rfl⟩ := Prod.mk.inj hc
    exact hq.queueChunk chunkID chunk
  | setChunk chunkID chunk =>
    rw [Call.exec, RemoteStorage.setChunk_eq] at hc
    obtain ⟨rfl, rfl⟩ := Prod.mk.inj hc
    exact hq
  | setChunkBatch chunks =>
    rw [Call.exec, RemoteStorage.setChunkBatch_eq] at hc
    obtain ⟨rfl, rfl⟩ := Prod.mk.inj hc
    exact hq
  | flush =>
    by_cases hnil : s.chunkQueue = []
    · rw [Call.exec, RemoteStorage.flush, if_pos hnil] at hc
      obtain ⟨rfl, rfl⟩ := Prod.mk.inj hc
      intro chunkID
      rw [hnil]
      rfl
    · rw [Call.exec, RemoteStorage.flush_of_ne hnil, RemoteStorage.setChunkBatch_eq] at hc
      obtain ⟨rfl, rfl⟩ := Prod.mk.inj hc
      -- the queue is emptied exactly if no error is returned
      by_cases herr :
          (if s.localOnly then (s.setChunkBatchLocal fault s.chunkQueue).1 else none) = none
      · rw [Call.queued, if_pos herr, if_pos herr]
        exact fun _ => rfl
      · rw [Call.queued, if_neg herr, if_neg herr]
        exact hq

theorem Run.queued {localOnly : Bool} {ldb : Option Smt.Store} {queue : List (Bytes × Bytes)}
    (h : Run localOnly ldb queue s) : Queued queue s := by
  induction h with
  | new => exact fun _ => rfl
  | call _ hc ih => exact ih.exec hc

/-! ## What a nil error means -/

/-- A nil error means that what was given is there with its last value, and `Flush` does not lose
the queue with an error. -/
def Call.Kept (queue : List (Bytes × Bytes)) (c : Call) (err : Option String) (s' : RemoteStorage) :
    Prop :=
  (err = none → ∀ chunkID v, lastValue (c.given queue) chunkID = some v →
    s'.getChunk noFault chunkID = ⟨v, true, none⟩) ∧
  (c = .flush → err ≠ none → ∀ chunkID v, lastValue queue chunkID = some v →
    ∃ ch ∈ s'.chunkQueue, ch.chunkID = chunkID ∧ ch.value = v)

/-- In local mode, or if the write does not fail, or if it makes no difference. -/
def Call.Safe (queue : List (Bytes × Bytes)) (s : RemoteStorage) (fault : Fault) (c : Call) :
    Prop :=
  c.given queue = [] ∨ s.localOnly = true ∨
    ∃ db, s.ldb = some db ∧ (fault = none ∨
      ∀ chunkID v, lastValue (c.given queue) chunkID = some v → db.lookup chunkID = some v)

/-- An error of `Flush` leaves the queue. -/
theorem Queued.flush_error {queue : List (Bytes × Bytes)} (hq : Queued queue s)
    (hc : Call.flush.exec fault s = (err, s')) (herr : err ≠ none) {chunkID v : Bytes}
    (hv : lastValue queue chunkID = some v) :
    ∃ ch ∈ s'.chunkQueue, ch.chunkID = chunkID ∧ ch.value = v := by
  have hq' := hq.exec hc
  rw [Call.queued, if_neg herr] at hq'
  rw [← hq'] at hv
  obtain ⟨l₁, l₂, hsplit, -⟩ := List.lookup_eq_some_iff.mp hv
  have hmem : (chunkID, v) ∈ (s'.chunkQueue.map Chunk.pair).reverse := by
    rw [hsplit]
    exact List.mem_append_right _ List.mem_cons_self
  obtain ⟨ch, hch, hpair⟩ := List.mem_map.mp (List.mem_reverse.mp hmem)
  obtain ⟨rfl, rfl⟩ := Prod.mk.inj hpair
  exact ⟨ch, hch, rfl, rfl⟩

/-- A nil error means what it says exactly in local mode, or if the write does not fail. -/
theorem Queued.kept_iff {queue : List (Bytes × Bytes)} {c : Call} (hq : Queued queue s)
    (hc : c.exec fault s = (err, s')) : c.Kept queue err s' ↔ c.Safe queue s fault := by
  by_cases hne : c.given queue = []
  · refine iff_of_true ⟨?_, ?_⟩ (Or.inl hne)
    · intro _ chunkID v hv
      rw [hne] at hv
      cases hv
    · rintro rfl herr chunkID v hv
      exact hq.flush_error hc herr hv
  · obtain ⟨⟨l, hl, hldb⟩, herr⟩ := Call.exec_cases hq hc hne
    constructor
    · rintro ⟨hkept, -⟩
      by_cases hmode : s.localOnly = true
      · exact Or.inr (Or.inl hmode)
      · have hkept := hkept (herr.mpr (Or.inl (Bool.eq_false_iff.mpr hmode)))
        -- something was given, so that there is a database
        obtain ⟨chunkID, v, hv⟩ := exists_lastValue hne
        obtain ⟨db', hdb', -⟩ := (s'.getChunk_eq chunkID v).mp (hkept chunkID v hv)
        by_cases hfault : fault = none
        · rw [written, if_pos hfault] at hldb
          rw [hldb] at hdb'
          obtain ⟨db, hdb, -⟩ := Option.map_eq_some_iff.mp hdb'
          exact Or.inr (Or.inr ⟨db, hdb, Or.inl hfault⟩)
        · rw [written, if_neg hfault] at hldb
          refine Or.inr (Or.inr ⟨db', by rw [← hldb, hdb'], Or.inr ?_⟩)
          intro chunkID v hv
          obtain ⟨db'', hdb'', hlook⟩ := (s'.getChunk_eq chunkID v).mp (hkept chunkID v hv)
          rw [hdb'] at hdb''
          rwa [Option.some.inj hdb'']
    · intro hsafe
      refine ⟨?_, ?_⟩
      · intro hnil chunkID v hv
        rw [RemoteStorage.getChunk_eq]
        have hok : ∃ db, s.ldb = some db ∧ (fault = none ∨
            ∀ chunkID v, lastValue (c.given queue) chunkID = some v →
              db.lookup chunkID = some v) := by
          rcases hsafe with h | h | h
          · exact (hne h).elim
          · obtain ⟨hsome, hfault⟩ := (herr.mp hnil).resolve_left (by rw [h]; decide)
            obtain ⟨db, hdb⟩ := Option.isSome_iff_exists.mp hsome
            exact ⟨db, hdb, Or.inl hfault⟩
          · exact h
        obtain ⟨db, hdb, hwrite⟩ := hok
        by_cases hfault : fault = none
        · refine ⟨db.setChunks l, by rw [hldb, written, if_pos hfault, hdb]; rfl, ?_⟩
          rw [lookup_setChunks, hl, hv]
          rfl
        · refine ⟨db, by rw [hldb, written, if_neg hfault, hdb], ?_⟩
          exact hwrite.resolve_left hfault chunkID v hv
      · rintro rfl herr' chunkID v hv
        exact hq.flush_error hc herr' hv

/-- In every run of a storage: a nil error of a call means that its chunks are there, and an error
of `Flush` leaves the queue, exactly where the call is safe. -/
theorem nil_error_iff_safe {localOnly : Bool} {ldb : Option Smt.Store}
    {queue : List (Bytes × Bytes)} {s s' : RemoteStorage} {c : Call} {fault : Fault}
    {err : Option String} (h : Run localOnly ldb queue s) (hc : c.exec fault s = (err, s')) :
    c.Kept queue err s' ↔ c.Safe queue s fault :=
  h.queued.kept_iff hc

/-- The last of two values of a queued chunk is there after the `Flush`. -/
theorem nil_error_iff_safe_twice :
    ∃ s, Run false (some []) [([1], [2]), ([1], [3])] s ∧
      (s.flush none).2.getChunk noFault [1] = ⟨[3], true, none⟩ := by
  have h₀ : Run false (some []) [] ⟨[], some [], false⟩ := Run.new
  have h₁ := h₀.call (show (Call.queueChunk [1] [2]).exec none _ = (none, _) from rfl)
  have h₂ := h₁.call (show (Call.queueChunk [1] [3]).exec none _ = (none, _) from rfl)
  refine ⟨_, h₂, ?_⟩
  have hkept := (nil_error_iff_safe h₂ (show Call.flush.exec none _ = (none, _) from rfl)).mpr
    (Or.inr (Or.inr ⟨[], rfl, Or.inl rfl⟩))
  exact hkept.1 rfl [1] [3] rfl

/-- Without a database `SetChunk` and `Flush` return nil, and the chunk is lost. -/
theorem nil_error_without_data :
    ((⟨[], none, false⟩ : RemoteStorage).setChunk none [1] [2]).1 = none ∧
    (((⟨[], none, false⟩ : RemoteStorage).setChunk none [1] [2]).2.getChunk noFault [1]).ok
        = false ∧
    (((⟨[], none, false⟩ : RemoteStorage).queueChunk [1] [2]).flush none).1 = none ∧
    (((⟨[], none, false⟩ : RemoteStorage).queueChunk [1] [2]).flush none).2.chunkQueue = [] ∧
    ((((⟨[], none, false⟩ : RemoteStorage).queueChunk [1] [2]).flush none).2.getChunk
      noFault [1]).ok = false := by
  decide

/-! ## Reading batches -/

/-- An element after `GetChunkBatch` against what it was, and against `GetChunk` of its ID. -/
def ElementAgrees (fault : Bytes → Fault) (s : RemoteStorage) (ch ch' : Chunk) : Prop :=
  ch'.chunkID = ch.chunkID ∧
    (⟨ch'.value, ch'.ok, ch'.error⟩ : GetResult) = s.getChunk fault ch.chunkID

/-- `GetChunkBatch` agrees with `GetChunk` for every element, and in local mode it returns nil
exactly if all of them are there. -/
def BatchAgrees (fault : Bytes → Fault) (s : RemoteStorage) (chunks : List Chunk) : Prop :=
  List.Forall₂ (ElementAgrees fault s) chunks (s.getChunkBatch fault chunks).2 ∧
    (s.localOnly = true → ((s.getChunkBatch fault chunks).1 = none ↔
      ∀ ch ∈ chunks, (s.getChunk fault ch.chunkID).ok = true))

/-- Without a database the elements must be what `GetChunk` returns already, and local mode needs
one. With a database every element must have the empty ID, and the chunk with this ID must be
there. -/
def BatchFits (fault : Bytes → Fault) (chunks : List Chunk) (s : RemoteStorage) : Prop :=
  match s.ldb with
  | none => (∀ ch ∈ chunks, ch.value = [] ∧ ch.ok = false ∧ ch.error = some "cache unavailable") ∧
      (s.localOnly = true → chunks ≠ [])
  | some db => ∀ ch ∈ chunks, ch.chunkID = [] ∧ fault [] = none ∧ ∃ v, db.lookup [] = some v

section
variable (readFault : Bytes → Fault) (chunks : List Chunk) (queue : List Chunk) (localOnly : Bool)

theorem getChunkBatch_none :
    (⟨queue, none, localOnly⟩ : RemoteStorage).getChunkBatch readFault chunks =
      (if localOnly then
        some
          ("[LocalMode] Error encountered trying to retrieve from cache: " ++ "cache unavailable")
      else none, chunks) := by
  rcases localOnly with _ | _
  · rfl
  · rfl

theorem getChunkBatch_some (db : Smt.Store) :
    (⟨queue, some db, localOnly⟩ : RemoteStorage).getChunkBatch readFault chunks =
      (none, chunks.map (RemoteStorage.getElement readFault db)) := by
  have huncached :
      (chunks.map (RemoteStorage.getElement readFault db)).filter (fun c => !c.ok) = [] :=
    List.filter_eq_nil_iff.mpr fun c hc => by
      obtain ⟨ch, -, rfl⟩ := List.mem_map.mp hc
      simp [RemoteStorage.getElement]
  rcases localOnly with _ | _
  · rfl
  · simp only [RemoteStorage.getChunkBatch, RemoteStorage.getChunkBatchLocal, huncached]
    rfl

end

/-- One element: it agrees if it has the empty ID and is there. -/
theorem elementAgrees_iff (readFault : Bytes → Fault) (queue : List Chunk) (localOnly : Bool)
    (db : Smt.Store) (ch : Chunk) :
    ElementAgrees readFault ⟨queue, some db, localOnly⟩ ch
        (RemoteStorage.getElement readFault db ch) ↔
      ch.chunkID = [] ∧ readFault [] = none ∧ ∃ v, db.lookup [] = some v := by
  simp only [ElementAgrees, RemoteStorage.getElement, RemoteStorage.getChunk,
    RemoteStorage.getChunkLocal, eq_comm (a := ([] : Bytes))]
  refine and_congr_right fun hid => ?_
  rw [hid]
  unfold RemoteStorage.ldbGet
  rcases readFault [] with _ | e
  · rcases db.lookup [] with _ | v
    · simp
    · simp
  · simp

/-- `GetChunkBatch` agrees with single reads exactly where the batch fits. -/
theorem getChunkBatch_agrees_iff (fault : Bytes → Fault) (s : RemoteStorage) (chunks : List Chunk) :
    BatchAgrees fault s chunks ↔ BatchFits fault chunks s := by
  obtain ⟨queue, _ | db, localOnly⟩ := s
  · rw [BatchAgrees, getChunkBatch_none, List.forall₂_same]
    refine and_congr (forall₂_congr fun ch _ => ?_) (forall_congr' fun hmode => ?_)
    · simp [ElementAgrees, RemoteStorage.getChunk, RemoteStorage.getChunkLocal]
    · -- nothing is found, so that only the empty batch has nothing missing
      change localOnly = true at hmode
      rw [if_pos hmode]
      simp only [reduceCtorEq, false_iff, RemoteStorage.getChunk, RemoteStorage.getChunkLocal,
        Bool.false_eq_true, imp_false, ← List.eq_nil_iff_forall_not_mem, ne_eq]
  · rw [BatchAgrees, getChunkBatch_some, List.forall₂_map_right_iff, List.forall₂_same]
    simp only [elementAgrees_iff]
    refine ⟨fun h => h.1, fun h => ⟨h, fun _ => iff_of_true trivial ?_⟩⟩
    intro ch hch
    have hagree := (elementAgrees_iff fault queue localOnly db ch).mpr (h ch hch)
    rw [← hagree.2]
    rfl

/-- A missing chunk is called found, and a chunk that is there loses its ID. -/
theorem getChunkBatch_disagrees :
    ((⟨[], some [([1], [2])], true⟩ : RemoteStorage).getChunkBatch noFault
        [⟨[5], [], false, none⟩, ⟨[1], [], false, none⟩]) =
      (none, [⟨[], [], true, none⟩, ⟨[], [2], true, none⟩]) ∧
    (⟨[], some [([1], [2])], true⟩ : RemoteStorage).getChunk noFault [5] = ⟨[], false, none⟩ ∧
    (⟨[], some [([1], [2])], true⟩ : RemoteStorage).getChunk noFault [1] = ⟨[2], true, none⟩ := by
  decide

end GoPlasma.Deep
