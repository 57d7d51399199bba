import GoPlasma.Plasma.HistoryTheorems

/-!
# The owners of anchored chains

A layer 3 chain is registered by the anchor of its block 0 and extended by anchors that its owners
sign. `Anchoring` are the runs of a state database: transactions are committed one by one, and the
database is written to the tries of a block and opened again there. Each accepted anchor is noted
with the owners before and after it. Every run of a node is one (`RunWith.anchoring`).

`RemoveOwner` compares pointers and removes nobody, and a signature that gives no signer counts as
one of the zero address. `anchor_owners` says what holds of all accepted anchors, and that the
owners change as they should exactly where neither matters.
-/

namespace GoPlasma.Plasma

open Act ListRel

variable {C : Crypto} {T : Tries} {n : ℕ} {w w' : Env Unit} {chainID : UInt64}

/-! ## The record of a chain -/

/-- The record of a chain: the object in the map, or the one in the trie, or a new one. -/
def currentChain (T : Tries) (o : Objects) (chainID : UInt64) : AnchorBlock :=
  (o.chain chainID).getD ((T.chains.lookup chainID).getD ⟨[], [], 0, 0⟩)

/-- The record after an anchor; `isSet` says whether the block has one for the chain already. -/
def chainAfter (C : Crypto) (tx : AnchorTransaction) (isSet : Bool) (c : AnchorBlock) :
    AnchorBlock :=
  { c with
    owners := ownersAfter C tx c.owners
    startBlock := if isSet then c.startBlock else tx.blockNumber
    endBlock := tx.blockNumber }

/-- What an accepted anchor has done to the chain objects. -/
structure AnchorEffect (C : Crypto) (T : Tries) (tx : AnchorTransaction) (o o' : Objects) :
    Prop where
  checked : chainError C tx (currentChain T o tx.blockChainID) = none
  chain : o'.chain tx.blockChainID = some (chainAfter C tx
    (o.chainIsSet.lookup tx.blockChainID).isSome (currentChain T o tx.blockChainID))
  others : ∀ k, k ≠ tx.blockChainID → o'.chain k = o.chain k

theorem currentChain_congr {o o' : Objects} (h : o'.chain chainID = o.chain chainID) :
    currentChain T o' chainID = currentChain T o chainID := by
  rw [currentChain, currentChain, h]

theorem sat_getOrCreateChain_map :
    Sat (getOrCreateChain (mapStorage T) chainID) w
      (fun p w' => w' = w ∧ Ref.value (w.db.objects.chain chainID) p =
        some (currentChain T w.db.objects chainID)) (fun _ _ => False) := by
  simp only [getOrCreateChain, sat_bind, sat_getObjects]
  rcases hl : w.db.objects.chainObjects.lookup chainID with _ | c
  · simp only [sat_bind, sat_onStore, mapStorage]
    rintro r st ⟨⟩
    rcases ht : T.chains.lookup chainID with _ | c
    · exact ⟨rfl, by simp [Ref.value, currentChain, Objects.chain, hl, ht]⟩
    · exact ⟨rfl, by simp [Ref.value, currentChain, Objects.chain, hl, ht]⟩
  · exact ⟨rfl, by simp [Ref.value, currentChain, Objects.chain, hl]⟩

/-- A setter of a chain object. -/
theorem sat_updateChain_value {p : Option (Ref AnchorBlock)} {c : AnchorBlock}
    (hc : Ref.value (w.db.objects.chain chainID) p = some c) (entry : AnchorBlock → JournalEntry)
    (f : AnchorBlock → AnchorBlock) :
    Sat (updateChain chainID entry f p) w
      (fun p' w' => Ref.value (w'.db.objects.chain chainID) p' = some (f c) ∧
        ∀ k, k ≠ chainID → w'.db.objects.chain k = w.db.objects.chain k) (fun _ _ => False) := by
  refine (sat_updateChain chainID entry f p).mpr fun c' hc' => ⟨?_, fun k hk => ?_⟩
  · obtain rfl := Option.some.inj (hc.symm.trans hc')
    rcases p with _ | _ | b
    · cases hc
    · simp [Env.log, Objects.assignChain, Ref.assign, Ref.value]
    · rfl
  · exact Objects.chain_assign_of_ne _ p _ hk

theorem sat_appendAnchorObjects_chain (tx : AnchorTransaction) {p : Option (Ref AnchorBlock)}
    {c : AnchorBlock} (hc : Ref.value (w.db.objects.chain tx.blockChainID) p = some c) :
    Sat (appendAnchorObjects tx p) w
      (fun _ w' => w'.db.objects.chain tx.blockChainID = some { c with
          startBlock := if (w.db.objects.chainIsSet.lookup tx.blockChainID).isSome then c.startBlock
            else tx.blockNumber
          endBlock := tx.blockNumber } ∧
        ∀ k, k ≠ tx.blockChainID → w'.db.objects.chain k = w.db.objects.chain k)
      (fun _ _ => False) := by
  let c₁ := { c with startBlock :=
    if (w.db.objects.chainIsSet.lookup tx.blockChainID).isSome then c.startBlock
      else tx.blockNumber }
  refine sat_appendAnchorObjects_of (I := fun q w₁ =>
    Ref.value (w₁.db.objects.chain tx.blockChainID) q = some c₁ ∧
      ∀ k, k ≠ tx.blockChainID → w₁.db.objects.chain k = w.db.objects.chain k)
    (fun hs => ⟨?_, fun _ _ => rfl⟩) (fun hs => ?_) ?_
  · simpa only [c₁, if_pos hs] using hc
  · simp only [c₁, if_neg hs]
    exact sat_updateChain_value hc _ _
  · rintro q w₁ ⟨hc₁, hk₁⟩
    refine (sat_updateChain_value hc₁ _ _).mono ?_ (fun _ _ h => h)
    rintro q' w₂ ⟨hc₂, hk₂⟩ c' hc'
    obtain rfl := Option.some.inj (hc₂.symm.trans hc')
    refine ⟨Finmap.lookup_insert _, fun k hk => ?_⟩
    exact (Finmap.lookup_insert_of_ne _ hk).trans ((hk₂ k hk).trans (hk₁ k hk))

/-- `ApplyAnchorTransaction` up to `StoreAnchorTransaction`, on a state database opened at a
block. -/
theorem sat_updateAnchor_map (tx : AnchorTransaction) :
    Sat (updateAnchor C (mapStorage T) tx) w
      (fun _ w' => AnchorEffect C T tx w.db.objects w'.db.objects) (fun _ _ => True) := by
  simp only [updateAnchor, updateOwners, sat_bind]
  refine ((sat_getOrCreateChain (mapStorage T) tx.blockChainID).and
    sat_getOrCreateChain_map).mono ?_ (fun _ _ _ => trivial)
  rintro q w₁ ⟨⟨-, hok⟩, rfl, hv⟩
  refine (sat_changeOwners C tx hok).mono ?_ (fun _ _ _ => trivial)
  rintro p₂ w₂ ⟨c, f, hc, hnone, hf, h₂⟩
  obtain rfl := Option.some.inj (hv.symm.trans hc)
  have hc₂ := h₂.value
  rw [hv, Option.map_some, hf] at hc₂
  refine (sat_appendAnchorObjects_chain tx hc₂).mono ?_ (fun _ _ h => h.elim)
  rintro _ w₃ ⟨hchain, hothers⟩
  obtain ⟨m, hm⟩ := h₂.frame
  have hset : w₂.db.objects.chainIsSet = w₁.db.objects.chainIsSet := by rw [hm]
  refine ⟨hnone, ?_, fun k hk => (hothers k hk).trans (h₂.others k hk)⟩
  rw [hchain, hset]
  rfl

/-- A token transaction leaves the chain objects alone. -/
theorem sat_updatePlasma_chains {S : Storage Unit} (tx : Transaction) :
    Sat (updatePlasma C S n tx) w
      (fun _ w' => w'.db.objects.chainObjects = w.db.objects.chainObjects) (fun _ _ => True) := by
  refine (sat_updatePlasma_frame S tx).mono ?_ (fun _ _ h => h)
  rintro _ w' ⟨t, m, hobjects⟩
  rw [hobjects]

/-- What an accepted transaction of either kind has done to the chain objects. -/
def ChainEffect (C : Crypto) (T : Tries) : Tx → Objects → Objects → Prop
  | .plasma _, o, o' => o'.chainObjects = o.chainObjects
  | .anchor tx, o, o' => AnchorEffect C T tx o o'

/-- A failed transaction fails after it was reverted, too. -/
theorem sat_revertFailed_error {S : Storage Unit} (id : ℕ) (e : String) :
    Sat (revertFailed S id e) w (fun _ _ => False) (fun _ _ => True) := by
  simp only [revertFailed, sat_bind, sat_orElse, sat_fail]
  exact (sat_self _ _).mono (fun _ _ _ => trivial) (fun _ _ _ => trivial)

/-- What the changes of a transaction establish, committing it establishes; and a rejected one
leaves the maps as they were. -/
theorem sat_commit_of_update {R : Objects → Objects → Prop} {tx : Tx} (hgood : tx.Good C)
    (hw : w.db.Ordered)
    (hupdate : Sat (updateObjects C (mapStorage T) n tx) w.snap
      (fun _ w' => R w.db.objects w'.db.objects) (fun _ _ => True)) :
    Sat (commitTransaction C (mapStorage T) n tx) w
      (fun _ w' => w'.db.Ordered ∧ R w.db.objects w'.db.objects)
      (fun _ w' => w'.db.Ordered ∧ w'.db.objects = w.db.objects) := by
  have heffect : Sat (commitTransaction C (mapStorage T) n tx) w
      (fun _ w' => R w.db.objects w'.db.objects) (fun _ _ => True) := by
    unfold Sat
    rw [commitTransaction, bind_ok (snapshot_eq w)]
    change Sat _ w.snap _ _
    rw [sat_orElse, applyTransaction_eq, sat_bind]
    refine hupdate.mono ?_ fun e _ _ =>
      (sat_revertFailed_error _ e).mono (fun _ _ h => h.elim) (fun _ _ _ => trivial)
    intro _ w₁ heff
    refine (sat_storeTx_map hgood).mono (fun _ w₂ hdb => ?_) (fun _ _ h => h.elim)
    rw [hdb]
    exact heff
  exact ((sat_commit_map hgood hw).and heffect).mono (fun _ _ h => ⟨h.1.1, h.2⟩) (fun _ _ h => h.1)

theorem sat_commit_chains {tx : Tx} (hgood : tx.Good C) (hw : w.db.Ordered) :
    Sat (commitTransaction C (mapStorage T) n tx) w
      (fun _ w' => w'.db.Ordered ∧ ChainEffect C T tx w.db.objects w'.db.objects)
      (fun _ w' => w'.db.Ordered ∧ w'.db.objects = w.db.objects) := by
  refine sat_commit_of_update (R := ChainEffect C T tx) hgood hw ?_
  cases tx with
  | plasma tx => exact sat_updatePlasma_chains tx
  | anchor tx => exact sat_updateAnchor_map tx

/-! ## Runs -/

/-- An accepted anchor, with the owners of its chain before and after it. -/
structure Anchored where
  tx : AnchorTransaction
  before : List Address
  after : List Address

/-- What is noted of a transaction that was committed. -/
def noted (T : Tries) (tx : Tx) (r : Except String Unit) (o o' : Objects) : List Anchored :=
  match tx, r with
  | .anchor tx, .ok () =>
      [⟨tx, (currentChain T o tx.blockChainID).owners, (currentChain T o' tx.blockChainID).owners⟩]
  | _, _ => []

/-- The runs of a state database from the first block on, with the accepted anchors. -/
inductive Anchoring (C : Crypto) : Tries → Env Unit → List Anchored → Prop where
  | new : Anchoring C (stateAt genesis) ⟨newStateDB, ()⟩ []
  /-- A transaction is accepted or rejected. -/
  | commit {T : Tries} {w w' : Env Unit} {log : List Anchored} {n : ℕ} {tx : Tx}
      {r : Except String Unit} (h : Anchoring C T w log) (hgood : tx.Good C)
      (hc : commitTransaction C (mapStorage T) n tx w = .ok (r, w')) :
      Anchoring C T w' (log ++ noted T tx r w.db.objects w'.db.objects)
  /-- A block is written, and the next one is begun. -/
  | block {T T' : Tries} {w : Env Unit} {log : List Anchored} {order : MapOrder}
      (h : Anchoring C T w log) (hv : order.Valid w.db.objects)
      (hc : Plasma.commit order w.db.objects T = .ok T') :
      Anchoring C { T' with transactions := ∅ } ⟨newStateDB, ()⟩ log

variable {log : List Anchored}

theorem Anchoring.ordered (h : Anchoring C T w log) : w.db.Ordered := by
  induction h with
  | new => exact newStateDB_ordered
  | @commit T w w' log n tx r _ hgood hc ih =>
    have hs := sat_commit_chains (T := T) (n := n) hgood ih
    rcases r with e | _
    · exact (hs.error hc).1
    · exact (hs.ok hc).1
  | block => exact newStateDB_ordered

/-! ## The chain trie of a block -/

/-- The record of a chain in the trie after `Commit`. -/
theorem updateChainObjects_lookup (o : Objects) (l : List UInt64) (T : Tries) (chainID : UInt64) :
    (l.foldl (fun T k => updateChainObject o k T) T).chains.lookup chainID =
      if chainID ∈ l then (o.chain chainID).or (T.chains.lookup chainID)
      else T.chains.lookup chainID := by
  induction l generalizing T with
  | nil => simp
  | cons k l ih =>
    have hone : (updateChainObject o k T).chains.lookup chainID =
        if chainID = k then (o.chain chainID).or (T.chains.lookup chainID)
        else T.chains.lookup chainID := by
      unfold updateChainObject
      by_cases h : chainID = k
      · subst h
        rcases hl : o.chainObjects.lookup chainID with _ | c
        · simp [Objects.chain, hl]
        · simp [Objects.chain, hl, Finmap.lookup_insert]
      · rcases o.chainObjects.lookup k with _ | c
        · simp [h]
        · simp [h, Finmap.lookup_insert_of_ne]
    rw [List.foldl_cons, ih, hone]
    by_cases hk : chainID = k
    · -- a second visit of the same key writes the same
      simp only [hk, if_true, List.mem_cons, true_or]
      rcases o.chain k with _ | c
      · simp
      · simp
    · simp [hk]

/-- The record of a chain after `Commit`: the object in the map, or what was in the trie. -/
theorem commit_chain {order : MapOrder} {o : Objects} {T' : Tries} (hv : order.Valid o)
    (h : commit order o T = .ok T') (chainID : UInt64) :
    T'.chains.lookup chainID = (o.chain chainID).or (T.chains.lookup chainID) := by
  obtain ⟨T₁, hacc, rfl⟩ := commit_cases h
  obtain ⟨-, -, hchains⟩ := updateAccountObjects_frame o order.accounts hacc
  rw [(updateTokenObjects_frame o _ T).2] at hchains
  rw [updateChainObjects_lookup, hchains]
  split_ifs with hm
  · rfl
  · have hn : o.chain chainID = none := by
      by_contra hne
      exact hm ((hv.2.2.mem chainID).mpr hne)
    rw [hn, Option.none_or]

/-- The record of a chain is the same before and after the block is written. -/
theorem currentChain_commit {order : MapOrder} {o : Objects} {T' : Tries}
    (hv : order.Valid o) (h : commit order o T = .ok T') (chainID : UInt64) :
    currentChain { T' with transactions := ∅ } newStateDB.objects chainID =
      currentChain T o chainID := by
  change (T'.chains.lookup chainID).getD _ = _
  rw [commit_chain hv h, currentChain]
  rcases o.chain chainID with _ | c
  · rfl
  · rfl

/-! ## The owners over a run -/

/-- The accepted anchors of a chain. -/
def forChain (chainID : UInt64) (log : List Anchored) : List Anchored :=
  log.filter fun e => decide (e.tx.blockChainID = chainID)

/-- The signer that the code looks up: the zero address where there is none. -/
def lookedUp (C : Crypto) (tx : AnchorTransaction) : Address :=
  match tx.getSigner C with
  | .error _ => zeroAddress
  | .ok signer => signer

/-- What was checked of an accepted anchor. -/
structure Anchored.Checked (C : Crypto) (e : Anchored) : Prop where
  after : e.after = ownersAfter C e.tx e.before
  first : e.tx.blockNumber = 0 → e.before = [] ∧ e.tx.extra.removedOwners = [] ∧
    ∃ signer, e.tx.getSigner C = .ok signer
  later : e.tx.blockNumber ≠ 0 → lookedUp C e.tx ∈ e.before

theorem chainError_none {tx : AnchorTransaction} {c : AnchorBlock} (h : chainError C tx c = none) :
    (tx.blockNumber = 0 → c.owners = [] ∧ tx.extra.removedOwners = [] ∧
      ∃ signer, tx.getSigner C = .ok signer) ∧
    (tx.blockNumber ≠ 0 → lookedUp C tx ∈ c.owners) := by
  unfold chainError at h
  refine ⟨fun h0 => ?_, fun h0 => ?_⟩
  · rw [if_pos h0] at h
    rcases hs : tx.getSigner C with e | signer
    · rw [hs] at h
      dsimp only at h
      split_ifs at h
    · rw [hs] at h
      dsimp only at h
      split_ifs at h with hreg hrem
      refine ⟨?_, ?_, signer, rfl⟩
      · exact List.length_eq_zero_iff.mp (by omega)
      · exact List.length_eq_zero_iff.mp (by omega)
  · rw [if_neg h0] at h
    -- every error that comes before the check of the owners is an error, too
    by_contra hn
    have herr : anchorError C tx c ≠ none := by
      unfold anchorError
      change (if _ then _ else if _ then _ else if _ then _
        else if lookedUp C tx ∉ c.owners then _ else none) ≠ none
      rw [if_pos hn]
      split_ifs
      · simp
      · simp
      · simp
      · simp
    rcases he : anchorError C tx c with _ | e
    · exact herr he
    · rw [he] at h
      cases h

theorem mem_withOwners {added owners : List Address} {a : Address} :
    a ∈ withOwners added owners ↔ a ∈ owners ∨ a ∈ added := by
  unfold withOwners
  induction added generalizing owners with
  | nil => simp
  | cons b added ih =>
    rw [List.foldl_cons, ih]
    split_ifs with hb
    · simp only [List.mem_cons]
      constructor
      · tauto
      · rintro (h | rfl | h)
        · exact .inl h
        · exact .inl hb
        · exact .inr h
    · simp only [List.mem_append, List.mem_cons, List.not_mem_nil, or_false, or_assoc]

theorem nodup_withOwners {added owners : List Address} (h : owners.Nodup) :
    (withOwners added owners).Nodup := by
  unfold withOwners
  induction added generalizing owners with
  | nil => exact h
  | cons b added ih =>
    rw [List.foldl_cons]
    split_ifs with hb
    · exact ih h
    · exact ih (List.nodup_append.mpr ⟨h, List.nodup_singleton b, fun x hx y hy hxy => hb (by
        rw [← List.mem_singleton.mp hy, ← hxy]; exact hx)⟩)

theorem Anchored.Checked.mem_after {e : Anchored} (h : e.Checked C) {a : Address} :
    a ∈ e.after ↔ a ∈ e.before ∨ a ∈ registrant C e.tx ∨ a ∈ e.tx.extra.addedOwners := by
  rw [h.after, ownersAfter, mem_withOwners, List.mem_append, or_assoc]

theorem registrant_later {tx : AnchorTransaction} (h : tx.blockNumber ≠ 0) :
    registrant C tx = [] := if_neg h

theorem registrant_first {tx : AnchorTransaction} (h : tx.blockNumber = 0) {signer : Address}
    (hs : tx.getSigner C = .ok signer) : registrant C tx = [signer] := by
  rw [registrant, if_pos h, hs]

theorem Anchored.Checked.nodup {e : Anchored} (h : e.Checked C) (hb : e.before.Nodup) :
    e.after.Nodup := by
  rw [h.after, ownersAfter]
  apply nodup_withOwners
  by_cases h0 : e.tx.blockNumber = 0
  · obtain ⟨hnil, -, signer, hs⟩ := h.first h0
    rw [hnil, registrant_first h0 hs]
    exact List.nodup_singleton signer
  · rw [registrant_later h0, List.append_nil]
    exact hb

theorem Anchored.Checked.ne_nil {e : Anchored} (h : e.Checked C) : e.after ≠ [] := by
  by_cases h0 : e.tx.blockNumber = 0
  · obtain ⟨-, -, signer, hs⟩ := h.first h0
    refine List.ne_nil_of_mem (h.mem_after.mpr (.inr (.inl ?_)) : signer ∈ e.after)
    rw [registrant_first h0 hs]
    exact List.mem_singleton_self signer
  · exact List.ne_nil_of_mem (h.mem_after.mpr (.inl (h.later h0)))

theorem AnchorEffect.checkedEntry {tx : AnchorTransaction} {o o' : Objects}
    (h : AnchorEffect C T tx o o') :
    Anchored.Checked C ⟨tx, (currentChain T o tx.blockChainID).owners,
      (currentChain T o' tx.blockChainID).owners⟩ := by
  obtain ⟨hfirst, hlater⟩ := chainError_none h.checked
  refine ⟨?_, hfirst, hlater⟩
  change (currentChain T o' tx.blockChainID).owners = _
  rw [currentChain, h.chain]
  rfl

/-- The owners of the chains are those after their last anchors, and each anchor starts from those
of the one before it. -/
structure OwnersInv (C : Crypto) (T : Tries) (o : Objects) (log : List Anchored) : Prop where
  checked : ∀ e ∈ log, e.Checked C
  linked : ∀ chainID, Neighbours (fun e e' => e'.before = e.after) (forChain chainID log)
  start : ∀ chainID e, (forChain chainID log)[0]? = some e → e.before = []
  ends : ∀ chainID, (currentChain T o chainID).owners =
    ((forChain chainID log).getLast?.map Anchored.after).getD []
  nodup : ∀ chainID, (currentChain T o chainID).owners.Nodup
  nodupBefore : ∀ e ∈ log, e.before.Nodup

theorem forChain_concat (chainID : UInt64) (log : List Anchored) (e : Anchored) :
    forChain chainID (log ++ [e]) =
      if e.tx.blockChainID = chainID then forChain chainID log ++ [e]
      else forChain chainID log := by
  by_cases h : e.tx.blockChainID = chainID
  · simp [forChain, h]
  · simp [forChain, h]

/-- One more accepted anchor. -/
theorem OwnersInv.accept {o o' : Objects} {tx : AnchorTransaction} (hi : OwnersInv C T o log)
    (h : AnchorEffect C T tx o o') :
    OwnersInv C T o' (log ++ [⟨tx, (currentChain T o tx.blockChainID).owners,
      (currentChain T o' tx.blockChainID).owners⟩]) where
  checked e he := by
    rcases List.mem_append.mp he with he | he
    · exact hi.checked e he
    · rw [List.mem_singleton.mp he]
      exact h.checkedEntry
  linked chainID := by
    rw [forChain_concat]
    split_ifs with hid
    · refine (hi.linked chainID).concat fun e he => ?_
      change (currentChain T o tx.blockChainID).owners = _
      change tx.blockChainID = chainID at hid
      rw [hid, hi.ends, he]
      rfl
    · exact hi.linked chainID
  start chainID e he := by
    rw [forChain_concat] at he
    split_ifs at he with hid
    · change tx.blockChainID = chainID at hid
      -- the first anchor of the chain, or one after it
      rcases hnil : forChain chainID log with _ | ⟨e₀, l⟩
      · rw [hnil] at he
        obtain rfl := Option.some.inj he
        change (currentChain T o tx.blockChainID).owners = _
        rw [hid, hi.ends, hnil]
        rfl
      · rw [hnil] at he
        obtain rfl := Option.some.inj he
        exact hi.start chainID e₀ (by rw [hnil]; rfl)
    · exact hi.start chainID e he
  ends chainID := by
    rw [forChain_concat]
    split_ifs with hid
    · rw [List.getLast?_concat]
      change tx.blockChainID = chainID at hid
      rw [← hid]
      rfl
    · rw [← hi.ends, currentChain_congr (h.others chainID fun heq => hid heq.symm)]
  nodup chainID := by
    by_cases hid : chainID = tx.blockChainID
    · rw [hid]
      exact h.checkedEntry.nodup (hi.nodup _)
    · rw [currentChain_congr (h.others chainID hid)]
      exact hi.nodup chainID
  nodupBefore e he := by
    rcases List.mem_append.mp he with he | he
    · exact hi.nodupBefore e he
    · rw [List.mem_singleton.mp he]
      exact hi.nodup _

theorem OwnersInv.congr {o o' : Objects} {T' : Tries} (hi : OwnersInv C T o log)
    (h : ∀ chainID, currentChain T' o' chainID = currentChain T o chainID) :
    OwnersInv C T' o' log :=
  { hi with
    ends := fun chainID => by rw [h, hi.ends]
    nodup := fun chainID => by rw [h]; exact hi.nodup chainID }

theorem Anchoring.ownersInv (h : Anchoring C T w log) : OwnersInv C T w.db.objects log := by
  induction h with
  | new =>
    exact ⟨fun e he => (by cases he), fun _ i e _ he => (by cases he), fun _ e he => (by cases he),
      fun chainID => rfl, fun chainID => List.nodup_nil, fun e he => (by cases he)⟩
  | @commit T w w' log n tx r hrun hgood hc ih =>
    have hs := sat_commit_chains (T := T) (n := n) hgood hrun.ordered
    rcases r with e | _
    · -- rejected: nothing is noted, and the maps are what they were
      rw [(hs.error hc).2]
      cases tx with
      | plasma tx => simpa only [noted, List.append_nil] using ih
      | anchor tx => simpa only [noted, List.append_nil] using ih
    · have heff := (hs.ok hc).2
      cases tx with
      | anchor tx => exact ih.accept heff
      | plasma tx =>
        have hsame : w'.db.objects.chainObjects = w.db.objects.chainObjects := heff
        have hchain : ∀ chainID, currentChain T w'.db.objects chainID =
            currentChain T w.db.objects chainID := by
          intro chainID
          rw [currentChain, currentChain, Objects.chain, Objects.chain, hsame]
        simp only [noted, List.append_nil]
        exact ih.congr hchain
  | block _ hv hc ih => exact ih.congr fun chainID => currentChain_commit hv hc chainID

/-! ## Nodes -/

theorem anchorTxs_concat (txs : List Tx) (tx : Tx) :
    anchorTxs (txs ++ [tx]) = anchorTxs txs ++ anchorTxs [tx] := by
  simp [anchorTxs]

theorem noted_ok (T : Tries) (tx : Tx) (o o' : Objects) :
    (noted T tx (.ok ()) o o').map Anchored.tx = anchorTxs [tx] := by
  cases tx with
  | plasma tx => rfl
  | anchor tx => rfl

/-- The loop of the minter goes on with a run. -/
theorem Anchoring.commitTransactions {anchors : List AnchorTransaction} {i : ℕ} {txes : List Tx}
    {m m' : Minting Unit} (h : commitTransactions C (mapStorage T) n i txes m = .ok m')
    (hgood : ∀ tx ∈ txes, tx.Good C) (hrun : Anchoring C T m.env log)
    (hlog : log.map Anchored.tx = anchors ++ anchorTxs m.committed) :
    ∃ log', Anchoring C T m'.env log' ∧
      log'.map Anchored.tx = anchors ++ anchorTxs m'.committed := by
  refine (commitTransactions_invariant (P := fun txes m => (∀ tx ∈ txes, tx.Good C) ∧
    ∃ log, Anchoring C T m.env log ∧ log.map Anchored.tx = anchors ++ anchorTxs m.committed)
    ?_ ?_ ⟨hgood, log, hrun, hlog⟩ h).choose_spec.2
  · rintro tx txes m env ⟨hgood, log, hrun, hlog⟩ hc
    refine ⟨fun t ht => hgood t (by simp [ht]), _, hrun.commit (hgood tx (by simp)) hc, ?_⟩
    rw [List.map_append, hlog, noted_ok, anchorTxs_concat, List.append_assoc]
  · rintro tx txes m e env ⟨hgood, log, hrun, hlog⟩ hc
    refine ⟨hgood, _, hrun.commit (hgood tx (by simp)) hc, ?_⟩
    -- a transaction that failed is tried again, and nothing is noted for it
    have hnone : noted T tx (.error e) m.env.db.objects env.db.objects = [] := by
      cases tx with
      | plasma tx => rfl
      | anchor tx => rfl
    rw [hnone, List.append_nil]
    exact hlog

/-- A run of a node is a run of state databases, whose accepted anchors are those of the chain. -/
theorem RunWith.anchoring {P : Node → Op → Prop} {s : Node} (h : RunWith C P s) :
    ∃ log, Anchoring C (stateAt s.currentBlock) ⟨newStateDB, ()⟩ log ∧
      log.map Anchored.tx = s.chain.flatMap Block.anchors := by
  induction h with
  | new => exact ⟨[], .new, rfl⟩
  | @step s s' op hrun _ hs ih =>
    obtain ⟨log, hlog, htxs⟩ := ih
    rcases step_block hs with ⟨hb, -, hc⟩ | ⟨c, m, T', rfl, hm⟩
    · rw [hb, hc]
      exact ⟨log, hlog, htxs⟩
    · obtain ⟨log', hlog', htxs'⟩ := Anchoring.commitTransactions hm.committed
        (fun tx htx => hm.good hrun.poolChecked htx) hlog
        (by rw [htxs]; exact (List.append_nil _).symm)
      refine ⟨log', ?_, ?_⟩
      · rw [hm.block]
        exact hlog'.block hm.valid hm.tries
      · rw [htxs', hm.chain, List.flatMap_append, hm.block]
        simp

/-! ## The law of the owners -/

/-- The owners are the old ones, with the signer of block 0 and the new ones added, without the
removed ones. -/
def Anchored.Lawful (C : Crypto) (e : Anchored) : Prop :=
  e.after.toFinset = (e.before.toFinset ∪ (registrant C e.tx).toFinset ∪
    e.tx.extra.addedOwners.toFinset) \ e.tx.extra.removedOwners.toFinset

/-- An anchor of a later block is signed by an owner. -/
def Anchored.Signed (C : Crypto) (e : Anchored) : Prop :=
  e.tx.blockNumber ≠ 0 → ∃ signer ∈ e.before, e.tx.getSigner C = .ok signer

/-- None of the removed addresses is an owner, and the signature gives a signer if the zero address
is one. -/
structure Anchored.Plain (C : Crypto) (e : Anchored) : Prop where
  removed : ∀ a ∈ e.tx.extra.removedOwners, a ∉ e.before ∧ a ∉ e.tx.extra.addedOwners
  signature : e.tx.blockNumber ≠ 0 → zeroAddress ∈ e.before →
    ∃ signer, e.tx.getSigner C = .ok signer

section
variable {e : Anchored}

theorem Anchored.Checked.lawful_iff (h : e.Checked C) : e.Lawful C ↔
    ∀ a ∈ e.tx.extra.removedOwners, a ∉ e.before ∧ a ∉ e.tx.extra.addedOwners := by
  have hunion : e.before.toFinset ∪ (registrant C e.tx).toFinset ∪
      e.tx.extra.addedOwners.toFinset = e.after.toFinset := by
    ext a
    simp [h.mem_after]
  rw [Anchored.Lawful, hunion, eq_comm, Finset.sdiff_eq_self_iff_disjoint, Finset.disjoint_right]
  refine forall_congr' fun a => ?_
  rw [List.mem_toFinset, List.mem_toFinset, h.mem_after]
  by_cases h0 : e.tx.blockNumber = 0
  · rw [(h.first h0).2.1]
    simp
  · rw [registrant_later h0]
    simp

theorem Anchored.Checked.signed_iff (h : e.Checked C) : e.Signed C ↔
    (e.tx.blockNumber ≠ 0 → zeroAddress ∈ e.before → ∃ signer, e.tx.getSigner C = .ok signer) := by
  refine forall_congr' fun h0 => ?_
  have hl := h.later h0
  unfold lookedUp at hl
  rcases hs : e.tx.getSigner C with err | signer
  · rw [hs] at hl
    simp [show zeroAddress ∈ e.before from hl]
  · rw [hs] at hl
    simp [show signer ∈ e.before from hl]

end

/-- Over every run of transactions and blocks: the owners of a chain after an accepted anchor are
different addresses, and there is one; they are the lawful ones and an owner has signed exactly
where the anchor is plain; and if all anchors are plain, an address that one of them removes and
none after it adds signs no later anchor of the chain. -/
theorem anchor_owners (h : Anchoring C T w log) :
    (∀ e ∈ log, e.after.Nodup ∧ e.after ≠ [] ∧ (e.Lawful C ∧ e.Signed C ↔ e.Plain C)) ∧
    ((∀ e ∈ log, e.Plain C) → ∀ chainID l₁ e l₂ e' l₃ a,
      forChain chainID log = l₁ ++ e :: (l₂ ++ e' :: l₃) →
      a ∈ e.tx.extra.removedOwners → (∀ x ∈ l₂, a ∉ x.tx.extra.addedOwners) →
      e'.tx.getSigner C ≠ .ok a) := by
  have hinv := h.ownersInv
  refine ⟨fun e he => ?_, ?_⟩
  · have hc := hinv.checked e he
    refine ⟨hc.nodup (hinv.nodupBefore e he), hc.ne_nil, ?_⟩
    rw [hc.lawful_iff, hc.signed_iff]
    exact ⟨fun h => ⟨h.1, h.2⟩, fun h => ⟨h.1, h.2⟩⟩
  · intro hplain chainID l₁ e l₂ e' l₃ a hlog ha hadded hsigner
    have hmem : ∀ x ∈ l₁ ++ e :: (l₂ ++ e' :: l₃), x ∈ log := by
      intro x hx
      rw [← hlog] at hx
      exact List.mem_of_mem_filter hx
    have hce := hinv.checked e (hmem e (by simp))
    have hce' := hinv.checked e' (hmem e' (by simp))
    have hlinked := hinv.linked chainID
    rw [hlog] at hlinked
    -- an anchor after another one finds owners, so that it is not one of block 0
    have hlater : ∀ x y, x ∈ log → y ∈ log → y.before = x.after → y.tx.blockNumber ≠ 0 := by
      intro x y hx hy hxy h0
      exact (hinv.checked x hx).ne_nil (hxy.symm.trans ((hinv.checked y hy).first h0).1)
    have hgone : a ∉ e.after := by
      obtain ⟨hb, had⟩ := (hplain e (hmem e (by simp))).removed a ha
      rw [hce.mem_after, registrant_later fun h0 => ?_]
      · simp [hb, had]
      · rw [(hce.first h0).2.1] at ha
        cases ha
    have hstep : ∀ x, ∀ y ∈ l₂, y.before = x.after → x ∈ log ∧ a ∉ x.after →
        y ∈ log ∧ a ∉ y.after := by
      rintro x y hy hxy ⟨hx, hax⟩
      have hy' := hmem y (by simp [hy])
      rw [(hinv.checked y hy').mem_after, registrant_later (hlater x y hx hy' hxy), hxy]
      simp [hy', hax, hadded y hy]
    obtain ⟨x, ⟨hx, hax⟩, hlink⟩ := hlinked.carry ⟨hmem e (by simp), hgone⟩ hstep
    have he' := hmem e' (by simp)
    obtain ⟨signer, hsb, hs⟩ :=
      hce'.signed_iff.mpr (hplain e' he').signature (hlater x e' hx he' hlink)
    obtain rfl := Except.ok.inj (hs.symm.trans hsigner)
    exact hax (hlink ▸ hsb)

/-! ### A chain of two owners -/

/-- A signature scheme in which the signature is the key. -/
def keyCrypto : Crypto := { byteCrypto with ecrecover := fun _ sig => .ok (4 :: sig) }

/-- A signature of the address that ends in one more than the number. -/
def sigOf (k : UInt8) : Slice := ⟨[0, 0, 0, 0, 0, k], by simp⟩

/-- An address that ends in a number. -/
def addressOf (k : UInt8) : Address := ⟨Bytes.zeros 19 ++ [k], by simp⟩

/-- The anchor of block 0 is signed by the first owner and adds the second one. -/
def registration : AnchorTransaction := ⟨1, 0, none, ⟨[addressOf 2], []⟩, sigOf 0⟩

/-- The first owner removes an address. -/
def removal (a : Address) : AnchorTransaction := ⟨1, 1, none, ⟨[], [a]⟩, sigOf 0⟩

/-- The second owner signs. -/
def extension : AnchorTransaction := ⟨1, 2, none, ⟨[], []⟩, sigOf 1⟩

/-- The three anchors in three blocks. -/
def anchorOps (a : Address) : List Op :=
  [.sendAnchor registration [addressOf 2] [], .mint ⟨[], [registration], ⟨[], [], [1]⟩⟩,
    .sendAnchor (removal a) [] [a], .mint ⟨[], [removal a], ⟨[], [], [1]⟩⟩,
    .sendAnchor extension [] [], .mint ⟨[], [extension], ⟨[], [], [1]⟩⟩]

def twoOwners : List Address := [addressOf 1, addressOf 2]

/-- The accepted anchors, with the owners. -/
def ownersLog (a : Address) : List Anchored :=
  [⟨registration, [], twoOwners⟩, ⟨removal a, twoOwners, twoOwners⟩,
    ⟨extension, twoOwners, twoOwners⟩]

theorem forChain_ownersLog (a : Address) : forChain 1 (ownersLog a) = ownersLog a := rfl

theorem anchoring_ownersLog {a : Address} {s : Node}
    (hs : exec keyCrypto newNode (anchorOps a) = .ok s)
    (htxs : s.chain.flatMap Block.anchors = [registration, removal a, extension]) :
    Anchoring keyCrypto (stateAt s.currentBlock) ⟨newStateDB, ()⟩ (ownersLog a) := by
  have hrun : Run keyCrypto s := Run.exec keyCrypto .new hs
  obtain ⟨log, hlog, hmap⟩ := hrun.anchoring
  have hinv := hlog.ownersInv
  rw [htxs] at hmap
  obtain ⟨⟨_, b₀, a₀⟩, l₀, rfl, rfl, hmap₀⟩ := List.map_eq_cons_iff.mp hmap
  obtain ⟨⟨_, b₁, a₁⟩, l₁, rfl, rfl, hmap₁⟩ := List.map_eq_cons_iff.mp hmap₀
  obtain ⟨⟨_, b₂, a₂⟩, l₂, rfl, rfl, hmap₂⟩ := List.map_eq_cons_iff.mp hmap₁
  obtain rfl := List.map_eq_nil_iff.mp hmap₂
  -- each anchor starts from the owners that the one before it left
  obtain rfl : b₀ = [] := hinv.start 1 _ rfl
  obtain rfl : a₀ = twoOwners := (hinv.checked ⟨registration, [], a₀⟩ (by simp)).after
  obtain rfl : b₁ = twoOwners := hinv.linked 1 0 _ _ rfl rfl
  obtain rfl : a₁ = twoOwners := (hinv.checked ⟨removal a, twoOwners, a₁⟩ (by simp)).after
  obtain rfl : b₂ = twoOwners := hinv.linked 1 1 _ _ rfl rfl
  obtain rfl : a₂ = twoOwners := (hinv.checked ⟨extension, twoOwners, a₂⟩ (by simp)).after
  exact hlog

/-- An address that is no owner is removed, and signs nothing. -/
theorem anchor_owners_stranger : ∃ s,
    exec keyCrypto newNode (anchorOps (addressOf 3)) = .ok s ∧
    Anchoring keyCrypto (stateAt s.currentBlock) ⟨newStateDB, ()⟩ (ownersLog (addressOf 3)) ∧
    (∀ e ∈ ownersLog (addressOf 3), e.after.Nodup ∧ e.after ≠ [] ∧ e.Lawful keyCrypto ∧
      e.Signed keyCrypto) ∧
    extension.getSigner keyCrypto ≠ .ok (addressOf 3) := by
  obtain ⟨s, hs, htxs⟩ : ∃ s, exec keyCrypto newNode (anchorOps (addressOf 3)) = .ok s ∧
      s.chain.flatMap Block.anchors = [registration, removal (addressOf 3), extension] :=
    ⟨_, rfl, by decide +kernel⟩
  have hrun := anchoring_ownersLog hs htxs
  have hplain : ∀ e ∈ ownersLog (addressOf 3), e.Plain keyCrypto := by
    intro e he
    simp only [ownersLog, List.mem_cons, List.not_mem_nil, or_false] at he
    rcases he with rfl | rfl | rfl
    · exact ⟨by decide, fun _ _ => ⟨_, rfl⟩⟩
    · exact ⟨by decide, fun _ _ => ⟨_, rfl⟩⟩
    · exact ⟨by decide, fun _ _ => ⟨_, rfl⟩⟩
  obtain ⟨hlaw, hgone⟩ := anchor_owners hrun
  refine ⟨s, hs, hrun, fun e he => ?_, ?_⟩
  · obtain ⟨hnodup, hne, hiff⟩ := hlaw e he
    exact ⟨hnodup, hne, hiff.mpr (hplain e he)⟩
  · exact hgone hplain 1 [⟨registration, [], twoOwners⟩] ⟨removal (addressOf 3), _, _⟩ []
      ⟨extension, twoOwners, twoOwners⟩ [] (addressOf 3) (forChain_ownersLog _) List.mem_cons_self
      (fun _ hx => by cases hx)

/-- The second owner is removed, and signs the next anchor. -/
theorem removed_owner_signs : ∃ s,
    exec keyCrypto newNode (anchorOps (addressOf 2)) = .ok s ∧
    Anchoring keyCrypto (stateAt s.currentBlock) ⟨newStateDB, ()⟩ (ownersLog (addressOf 2)) ∧
    (∃ e ∈ ownersLog (addressOf 2), ¬ e.Lawful keyCrypto) ∧
    addressOf 2 ∈ (removal (addressOf 2)).extra.removedOwners ∧
    extension.getSigner keyCrypto = .ok (addressOf 2) := by
  obtain ⟨s, hs, htxs⟩ : ∃ s, exec keyCrypto newNode (anchorOps (addressOf 2)) = .ok s ∧
      s.chain.flatMap Block.anchors = [registration, removal (addressOf 2), extension] :=
    ⟨_, rfl, by decide +kernel⟩
  refine ⟨s, hs, anchoring_ownersLog hs htxs, ⟨_, List.mem_cons_of_mem _ List.mem_cons_self, ?_⟩,
    List.mem_cons_self, rfl⟩
  unfold Anchored.Lawful
  decide

end GoPlasma.Plasma
