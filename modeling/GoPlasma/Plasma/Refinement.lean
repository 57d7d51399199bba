import GoPlasma.Plasma.AccountTheorems
import GoPlasma.Plasma.AnchorTheorems
import GoPlasma.Plasma.ReadableTheorems

/-!
# The maps of the node and the trees of `Commit`

The node model has the records of a block in maps (`mapStorage`, `commit`), the model of `Commit`
has them in trees over a chunk store (`treeStorage`, `commitTrees`). `Shows`: the trees hold what
the maps say. A commit to both keeps it (`Shows.commit`), so it holds at every header of a run of
commits (`TriesRun.shows`), and a storage that is opened at a header and used answers every read as
`mapStorage` does (`TriesRun.reads`). The conditions are those of `CommitStep`: no `SetChunk` fails,
no key is zero, and no total is negative. Of the faults of the chunk store that `sealBlock` has, the
bloom filter is the one that `Commit` returns an error for (`commitTrees_error_iff`).
-/

namespace GoPlasma.Plasma

variable {C : Crypto} {sort : SortSlice} {o : Objects} {disk disk' : Disk} {T T' : Tries}
  {L : Forest} {hd hd' : Header} {order : CommitOrder}

/-! ## One commit -/

/-- The trees with these contents hold the records of the maps. -/
structure Shows (T : Tries) (disk : Disk) (L : Forest) : Prop where
  token : ∀ id, (mapStorage T).getToken id ()
    = .ok (recordOf Token.decode disk.chunks (L .token (idKey id)), ())
  account : ∀ key, (mapStorage T).getAccount key ()
    = .ok (recordOf Account.decode disk.chunks (L .account key), ())
  chain : ∀ id, (mapStorage T).getChain id ()
    = .ok (recordOf AnchorBlock.decode disk.chunks (L .chain (idKey id)), ())

/-- Empty trees show empty maps. -/
theorem shows_empty (disk : Disk) : Shows genesis.tries disk fun _ => Smt.Contents.empty :=
  ⟨fun _ => rfl, fun _ => rfl, fun _ => rfl⟩

section
variable {hs : List (Header × Forest)}

/-- `Commit` returns, so no account object is nil. -/
theorem CommitStep.notNil (hstep : CommitStep C sort hs disk hd L order o hd' disk')
    (addr : Address) : o.accountObjects.lookup addr ≠ some none := by
  obtain ⟨st, st', time, n, parentHash, -, hcommit, -⟩ := hstep.exec
  exact (regular_of_commitTrees hstep.valid hcommit).accounts addr

/-- Where `Commit` on the trees returns a header, the one on the maps returns. -/
theorem CommitStep.returns (hstep : CommitStep C sort hs disk hd L order o hd' disk') (T : Tries) :
    ∃ T', commit order.toMapOrder o T = .ok T' := by
  refine commit_returns (fun addr haddr => ?_) T
  obtain ⟨p, hp⟩ := Option.ne_none_iff_exists'.mp ((hstep.valid.1.2.1.mem addr).mp haddr)
  rcases p with _ | a
  · exact absurd hp (hstep.notNil addr)
  · exact ⟨a, hp⟩

/-- A commit to the maps and to trees that show them. -/
theorem Shows.commit (h : Shows T disk L)
    (hrun : CommitRun C sort hs disk) (hstep : CommitStep C sort hs disk hd L order o hd' disk')
    (hcf : Smt.CollisionFree C.keccak
      (runHashed C (hs ++ [(hd', L.commit C noFaults sort o order)]) disk'))
    (hT : Plasma.commit order.toMapOrder o { T with transactions := ∅ } = .ok T') :
    Shows T' disk' (L.commit C noFaults sort o order).opened where
  token := by
    intro id
    have hlook := (commit_lookup hT hstep.valid.1 id).1
    rw [committedToken] at hlook
    rcases hs : o.tokenObjects.lookup id with _ | s
    · rw [hs] at hlook
      rw [recordOf_token_of_none hrun hstep hcf hs, ← h.token id]
      simp only [mapStorage, hlook]
    · rw [hs] at hlook
      simp only [hstep.storable.noneDeleted id s hs, Bool.false_eq_true, if_false] at hlook
      rw [recordOf_token hrun hstep hcf hs]
      simp only [mapStorage, hlook]
  account := by
    intro key
    by_cases hex : ∃ addr, o.accountObjects.lookup addr ≠ none ∧ shortAddr addr = key
    · obtain ⟨addr, hmem, rfl⟩ := hex
      obtain ⟨p, hp⟩ := Option.ne_none_iff_exists'.mp hmem
      rcases p with _ | a
      · exact absurd hp (hstep.notNil addr)
      · have halone : Alone addr o := fun addr' h' => hstep.storable.shortDistinct addr'
          (Finmap.mem_iff.mpr (Option.ne_none_iff_exists'.mp h')) addr
          (Finmap.mem_of_lookup_eq_some hp)
        have hlook := commit_account_self hT hstep.valid.1 halone hp
        obtain ⟨-, hden, hbal, -⟩ := hstep.storable.account addr a hp
        rw [storedAccount, if_neg (by omega)] at hlook
        rw [recordOf_account hrun hstep hcf hp]
        simp only [mapStorage, hlook]
    · have hno : ∀ addr, o.accountObjects.lookup addr ≠ none → shortAddr addr ≠ key :=
        fun addr hmem heq => hex ⟨addr, hmem, heq⟩
      rw [recordOf_account_of_none hrun hstep hcf fun addr hmem =>
        hno addr (Option.ne_none_iff_exists'.mpr (Finmap.mem_iff.mp hmem)), ← h.account key]
      simp only [mapStorage, commit_account_other hT hno]
  chain := by
    intro id
    have hlook := commit_chain hstep.valid.1 hT id
    rcases hc : o.chainObjects.lookup id with _ | c
    · rw [Objects.chain, hc, Option.none_or] at hlook
      rw [recordOf_chain_of_none hrun hstep hcf hc, ← h.chain id]
      simp only [mapStorage, hlook]
    · rw [Objects.chain, hc, Option.some_or] at hlook
      rw [recordOf_chain hrun hstep hcf hc]
      simp only [mapStorage, hlook]

/-- The trees of an earlier commit still show the maps when more is stored. -/
theorem Shows.later {x : Header × Forest} (h : Shows T disk x.2.opened)
    (hc : Committed C hs disk) (hx : x ∈ hs) (hf : disk'.Finds C)
    (hsub : disk.filed C ⊆ disk'.filed C) : Shows T disk' x.2.opened := by
  have hsame : ∀ {α : Type} (decode : Bytes → Option α) (ty : TreeType), ty.hashed = true →
      ∀ k, recordOf decode disk'.chunks (x.2.opened ty k)
        = recordOf decode disk.chunks (x.2.opened ty k) := by
    intro α decode ty hty k
    rw [Forest.opened, if_pos hty]
    exact recordOf_eq (hc.filed x hx ty hty) hc.finds hf hsub k
  refine ⟨fun id => ?_, fun key => ?_, fun id => ?_⟩
  · rw [h.token, hsame _ .token rfl]
  · rw [h.account, hsame _ .account rfl]
  · rw [h.chain, hsame _ .chain rfl]

end

/-! ## Runs of commits -/

/-- What is opened at a header: no records before the first block, or else those of a commit. -/
def OpensAt (hs : List ((Header × Forest) × Tries)) (hd : Header) (L : Forest) (T : Tries) : Prop :=
  (hd = zeroHeader ∧ L = (fun _ => Smt.Contents.empty) ∧ T = genesis.tries) ∨
    ∃ x ∈ hs, hd = x.1.1 ∧ L = x.1.2.opened ∧ T = x.2

variable (C sort) in
/-- Commits into one store, each with the maps that the node has after it. -/
inductive TriesRun : List ((Header × Forest) × Tries) → Disk → Prop
  | start : TriesRun [] ⟨[], []⟩
  | write {hs : List ((Header × Forest) × Tries)} {disk : Disk} (k v : Bytes) : TriesRun hs disk →
      disk.Admits C k v → TriesRun hs { disk with chunks := (k, v) :: disk.chunks }
  | commit {hs : List ((Header × Forest) × Tries)} {disk disk' : Disk} {hd hd' : Header}
      {L : Forest} {T T' : Tries} {order : CommitOrder} {o : Objects} : TriesRun hs disk →
      OpensAt hs hd L T →
      CommitStep C sort (hs.map Prod.fst) disk hd L order o hd' disk' →
      Plasma.commit order.toMapOrder o { T with transactions := ∅ } = .ok T' →
      TriesRun (hs ++ [((hd', L.commit C noFaults sort o order), T')]) disk'

section
variable {hs : List ((Header × Forest) × Tries)}

theorem TriesRun.commitRun (h : TriesRun C sort hs disk) :
    CommitRun C sort (hs.map Prod.fst) disk := by
  induction h with
  | start => exact .start
  | write k v _ hadm ih => exact ih.write k v hadm
  | commit _ _ hstep _ ih =>
    rw [List.map_append]
    exact ih.commit hstep

/-- At every header of the run the trees show the maps. -/
theorem TriesRun.shows (h : TriesRun C sort hs disk)
    (hcf : Smt.CollisionFree C.keccak (runHashed C (hs.map Prod.fst) disk)) :
    ∀ x ∈ hs, Shows x.2 disk x.1.2.opened := by
  induction h with
  | start => exact fun _ hx => (by cases hx)
  | @write hs disk k v hrun hadm ih =>
    have hsub : disk.Sub { disk with chunks := (k, v) :: disk.chunks } :=
      ⟨fun _ hx => List.mem_cons_of_mem _ hx, fun _ hx => hx⟩
    have hcf₀ := hcf.mono (runHashed_mono hsub fun _ hx => hx)
    intro x hx
    exact (ih hcf₀ x hx).later (hrun.commitRun.committed hcf₀) (List.mem_map_of_mem hx)
      ((hrun.commitRun.write k v hadm).committed hcf).finds fun b hb => hsub.chunks _ hb
  | @commit hs disk disk' hd hd' L T T' order o hrun hopens hstep hT ih =>
    rw [List.map_append] at hcf
    have hcf₀ := hcf.mono (runHashed_mono hstep.sub fun x hx => List.mem_append_left _ hx)
    have hold := ih hcf₀
    have hshows : Shows T disk L := by
      rcases hopens with ⟨-, rfl, rfl⟩ | ⟨x, hx, -, rfl, rfl⟩
      · exact shows_empty disk
      · exact hold x hx
    intro x hx
    rcases List.mem_append.mp hx with hx | hx
    · exact (hold x hx).later (hrun.commitRun.committed hcf₀) (List.mem_map_of_mem hx)
        ((hrun.commitRun.commit hstep).committed hcf).finds fun b hb => hstep.sub.chunks _ hb
    · rw [List.mem_singleton.mp hx]
      exact hshows.commit hrun.commitRun hstep hcf hT

end

/-! ## Reads -/

/-- Both storages give this answer. -/
def SameAnswer {α : Type} (x : Go (α × Unit)) (y : Go (α × TreeStorage)) : Prop :=
  ∃ r st', x = .ok (r, ()) ∧ y = .ok (r, st')

/-- Storages that answer every read alike. -/
structure SameReads (S : Storage TreeStorage) (st : TreeStorage) (T : Tries) : Prop where
  token : ∀ id, SameAnswer ((mapStorage T).getToken id ()) (S.getToken id st)
  hasToken : ∀ id, SameAnswer ((mapStorage T).hasToken id ()) (S.hasToken id st)
  account : ∀ key, SameAnswer ((mapStorage T).getAccount key ()) (S.getAccount key st)
  chain : ∀ id, SameAnswer ((mapStorage T).getChain id ()) (S.getChain id st)


/-- Whether there is an entry can be told from what is read for it. -/
theorem recordOf_eq_notFound {α : Type} {decode : Bytes → Option α} {chunks : Smt.Store}
    {e : Option Smt.Entry} : recordOf decode chunks e = .notFound ↔ e = none := by
  rcases e with _ | e
  · exact iff_of_true rfl rfl
  · simp only [recordOf, reduceCtorEq, iff_false]
    split
    · simp
    · simp
    · split <;> simp

/-- A storage whose trees show the maps answers as they do. -/
theorem Shows.reads {st : TreeStorage} (h : Shows T st.chunkStore L) (hst : Standing C L st) :
    SameReads (treeStorage C Smt.Store.getChunk) st T where
  token id := ⟨_, (hst.getToken id).choose, h.token id, (hst.getToken id).choose_spec⟩
  hasToken id := by
    obtain ⟨t, ht⟩ := hst .token
    obtain ⟨res, n, hget, -, hans, herr⟩ := ht.get (idKey id)
    have hfound : res.found = (T.tokens.lookup id).isSome := by
      have hnone : L .token (idKey id) = none ↔ T.tokens.lookup id = none := by
        have hread := (Prod.mk.inj (Except.ok.inj (h.token id))).1
        rw [← recordOf_eq_notFound, ← hread]
        rcases T.tokens.lookup id with _ | t <;> simp
      have hans := congrArg (·.2.1) hans
      rcases he : L .token (idKey id) with _ | e
      · rw [he] at hans
        rw [hnone.mp he]
        exact hans
      · rw [he] at hans
        obtain ⟨t, ht⟩ := Option.ne_none_iff_exists'.mp
          (mt hnone.mpr (by rw [he]; exact Option.some_ne_none e))
        rw [ht]
        exact hans
    refine ⟨_, { st with tokenStorage := n }, rfl, ?_⟩
    simp only [treeStorage, bind_eq_ok]
    exact ⟨(res, n), hget, by simp only [herr, hfound]⟩
  account key := ⟨_, (hst.getAccount key).choose, h.account key, (hst.getAccount key).choose_spec⟩
  chain id := ⟨_, (hst.getChain id).choose, h.chain id, (hst.getChain id).choose_spec⟩

/-- A storage that is opened at a header of the run and used answers every read as the maps of the
node do at this block. -/
theorem TriesRun.reads {hs : List ((Header × Forest) × Tries)} {st : TreeStorage}
    (h : TriesRun C sort hs disk)
    (hcf : Smt.CollisionFree C.keccak (runHashed C (hs.map Prod.fst) disk))
    {x : (Header × Forest) × Tries} (hx : x ∈ hs) (hu : Used C (openStorage x.1.1 disk) st)
    (hst : Smt.CollisionFree C.keccak (st.chunkStore.filed C)) :
    SameReads (treeStorage C Smt.Store.getChunk) st x.2 := by
  have hc := h.commitRun.committed hcf
  have hmem := List.mem_map_of_mem (f := Prod.fst) hx
  have hshows : Shows x.2 st.chunkStore x.1.2.opened := (h.shows hcf x hx).later hc hmem
    (hu.untouched.finds hst hc.finds) fun b hb => hu.untouched.chunks _ hb
  exact hshows.reads (hu.untouched.standing _ (hc.opened hcf (.inr ⟨_, hmem, rfl⟩)))

/-! ## Faults -/

/-- Which chunks of `Commit` are not stored. -/
def commitFaults (C : Crypto) (tokens : List UInt64) : Option Fault → Faults
  | some .bloom => failsFor C (newBloom tokens)
  | _ => noFaults

/-- `Commit` returns an error where `sealBlock` has one. -/
theorem commitTrees_error_iff {fault : Option Fault} {time : UInt64} {n : ℕ} {parentHash : Hash}
    {r : Except String Header} {st st' : TreeStorage}
    (h : commitTrees C (commitFaults C order.tokens fault) sort order time n parentHash o st
      = .ok (r, st')) :
    (∃ e, r = .error e) ↔ fault = some .bloom ∧ order.tokens ≠ [] := by
  have hiff : (∃ e, r = .error e) ↔ bloomFault C (commitFaults C order.tokens fault) order.tokens
      ≠ none := by
    rcases commitTrees_fault h with ⟨e, rfl, he⟩ | ⟨hd, rfl, he⟩ <;> simp [he]
  rw [hiff, bloomFault]
  rcases fault with _ | _ | _ | _ <;> simp [commitFaults, failsFor, noFaults]

end GoPlasma.Plasma
