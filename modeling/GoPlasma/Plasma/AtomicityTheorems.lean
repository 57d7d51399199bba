import GoPlasma.Plasma.ApplyTheorems

/-!
# Rejected transactions

When is a transaction that `commitTransaction` rejects without effect on the state? `checks` are the
reads and checks that `ApplyTransaction` makes before it stores the transaction, without any of its
changes. If they refuse the transaction, the journal restores the maps. If they pass and storing the
transaction fails, the objects are in the maps already, where the journal does not reach them.
-/

namespace GoPlasma.Plasma

open Act

variable {σ : Type} {w w₀ w₁ w₂ : Env σ} {chainID : UInt64} {p p₁ p₂ : Option (Ref AnchorBlock)}

/-! ## Changes of a chain object -/

/-- An object that is not in the map is the only one for its chain. -/
def ChainRefOk (o : Objects) (chainID : UInt64) (p : Option (Ref AnchorBlock)) : Prop :=
  ∀ c, p = some (.fresh c) → o.chain chainID = none

/-- The chain object has become `f` of what it was. -/
structure ChainChanged (chainID : UInt64) (f : AnchorBlock → AnchorBlock)
    (p : Option (Ref AnchorBlock)) (w : Env σ) (p' : Option (Ref AnchorBlock)) (w' : Env σ) :
    Prop where
  since : Since w w'
  ok : ChainRefOk w'.db.objects chainID p'
  value : Ref.value (w'.db.objects.chain chainID) p' =
    (Ref.value (w.db.objects.chain chainID) p).map f
  frame : ∃ m, w'.db.objects = { w.db.objects with chainObjects := m }
  others : ∀ k, k ≠ chainID → w'.db.objects.chain k = w.db.objects.chain k

theorem ChainChanged.refl (hok : ChainRefOk w.db.objects chainID p) :
    ChainChanged chainID id p w p w :=
  ⟨.refl w, hok, by simp, ⟨_, rfl⟩, fun _ _ => rfl⟩

theorem ChainChanged.trans {f g : AnchorBlock → AnchorBlock} (h : ChainChanged chainID f p w p₁ w₁)
    (h' : ChainChanged chainID g p₁ w₁ p₂ w₂) : ChainChanged chainID (g ∘ f) p w p₂ w₂ := by
  obtain ⟨m, hm⟩ := h.frame
  obtain ⟨m', hm'⟩ := h'.frame
  exact ⟨h.since.trans h'.since, h'.ok, by rw [h'.value, h.value, Option.map_map],
    ⟨m', by rw [hm', hm]⟩, fun k hk => (h'.others k hk).trans (h.others k hk)⟩

theorem Objects.chain_assign_of_ne (o : Objects) (p : Option (Ref AnchorBlock)) (c : AnchorBlock)
    {k : UInt64} (hk : k ≠ chainID) : (o.assignChain chainID p c).chain k = o.chain k := by
  rcases p with _ | _ | b
  · rfl
  · exact Finmap.lookup_insert_of_ne _ hk
  · rfl

/-- A setter of the chain object whose entry restores the old value. -/
theorem ChainChanged.update {f g : AnchorBlock → AnchorBlock} {e : JournalEntry} {c : AnchorBlock}
    (hok : ChainRefOk w.db.objects chainID p)
    (hc : Ref.value (w.db.objects.chain chainID) p = some c)
    (he : e.undo = Objects.mapChain chainID g) (hg : g (f c) = c) :
    ChainChanged chainID f p w (Ref.assign (f c) p)
      (w.log e (Objects.assignChain chainID p (f c))) := by
  refine ⟨(Since.refl w).updateChain hok hc he hg, ?_, ?_, ?_,
    fun k hk => Objects.chain_assign_of_ne _ p _ hk⟩
  all_goals rcases p with _ | _ | b
  · cases hc
  · rintro c' ⟨⟩
  · exact fun _ _ => hok b rfl
  · cases hc
  · rw [hc]
    simp [Env.log, Objects.assignChain, Ref.assign, Ref.value]
  · rw [hc]
    rfl
  · cases hc
  · exact ⟨_, rfl⟩
  · exact ⟨_, rfl⟩

/-! ## The owners -/

/-- The owners after the new ones of a list were added. -/
def withOwners (added owners : List Address) : List Address :=
  added.foldl (fun os a => if a ∈ os then os else os ++ [a]) owners

theorem sat_addOwner (addr : Address) (hok : ChainRefOk w.db.objects chainID p) :
    Sat (addOwner chainID addr p) w
      (fun p' w' => ChainChanged chainID (fun c => { c with owners := c.owners ++ [addr] })
        p w p' w')
      (fun _ _ => False) :=
  (sat_updateChain chainID _ _ p).mpr fun c hc =>
    ChainChanged.update (g := fun c' => { c' with owners := c.owners }) hok hc rfl rfl

theorem sat_removeOwner (addr : Address) (hok : ChainRefOk w.db.objects chainID p) :
    Sat (removeOwner chainID addr p) w (fun p' w' => ChainChanged chainID id p w p' w')
      (fun _ _ => False) :=
  (sat_updateChain chainID _ _ p).mpr fun c hc =>
    ChainChanged.update (g := fun c' => { c' with owners := c.owners }) hok hc rfl rfl

theorem sat_addOwners (added : List Address) (hok : ChainRefOk w.db.objects chainID p) :
    Sat (addOwners chainID added p) w
      (fun p' w' => ChainChanged chainID
        (fun c => { c with owners := withOwners added c.owners }) p w p' w')
      (fun _ _ => False) := by
  induction added generalizing w p with
  | nil => exact ChainChanged.refl hok
  | cons a added ih =>
    simp only [addOwners, sat_bind, sat_deref]
    intro c hc
    -- `h` is the change by the first owner of the list
    have hrest : ∀ (f : AnchorBlock → AnchorBlock) p₁ (w₁ : Env σ),
        f c = { c with owners := if a ∈ c.owners then c.owners else c.owners ++ [a] } →
        ChainChanged chainID f p w p₁ w₁ →
        Sat (addOwners chainID added p₁) w₁ (fun p' w' => ChainChanged chainID
          (fun c => { c with owners := withOwners (a :: added) c.owners }) p w p' w')
          (fun _ _ => False) := by
      intro f p₁ w₁ hf h
      refine (ih h.ok).mono ?_ (fun _ _ h => h)
      intro p' w' h'
      have ht := h.trans h'
      refine ⟨ht.since, ht.ok, ?_, ht.frame, ht.others⟩
      rw [ht.value, hc]
      simp [hf, withOwners]
    by_cases ha : a ∈ c.owners
    · rw [if_pos ha]
      exact hrest id p w (by simp [ha]) (ChainChanged.refl hok)
    · rw [if_neg ha, sat_bind]
      refine (sat_addOwner a hok).mono ?_ (fun _ _ h => h)
      intro p₁ w₁ h
      exact hrest _ p₁ w₁ (by simp [ha]) h

/-- The address that an anchor registers as the first owner: the signer of block 0. -/
def registrant (C : Crypto) (tx : AnchorTransaction) : List Address :=
  if tx.blockNumber = 0 then
    match tx.getSigner C with
    | .error _ => []
    | .ok signer => [signer]
  else []

/-- The owners after an anchor. Those that it removes are still there. -/
def ownersAfter (C : Crypto) (tx : AnchorTransaction) (owners : List Address) : List Address :=
  withOwners tx.extra.addedOwners (owners ++ registrant C tx)

/-- A removal that the code refuses: the only owner. -/
def RemovesOnly (removed owners : List Address) : Prop :=
  owners.length = 1 ∧ ∃ a ∈ removed, a ∈ owners

instance (removed owners : List Address) : Decidable (RemovesOnly removed owners) := by
  unfold RemovesOnly
  infer_instance

theorem sat_removeOwners (removed : List Address) {c : AnchorBlock}
    (hok : ChainRefOk w.db.objects chainID p)
    (hc : Ref.value (w.db.objects.chain chainID) p = some c) :
    Sat (removeOwners chainID removed p) w
      (fun p' w' => ¬ RemovesOnly removed c.owners ∧ ChainChanged chainID id p w p' w')
      (fun _ w' => RemovesOnly removed c.owners ∧ Since w w') := by
  induction removed generalizing w p with
  | nil => exact ⟨by simp [RemovesOnly], ChainChanged.refl hok⟩
  | cons a removed ih =>
    simp only [removeOwners, sat_bind, sat_deref, hc, Option.some.injEq, forall_eq']
    have hrest : ∀ p₁ (w₁ : Env σ), ¬ (a ∈ c.owners ∧ c.owners.length = 1) →
        ChainChanged chainID id p w p₁ w₁ →
        Sat (removeOwners chainID removed p₁) w₁
          (fun p' w' => ¬ RemovesOnly (a :: removed) c.owners ∧ ChainChanged chainID id p w p' w')
          (fun _ w' => RemovesOnly (a :: removed) c.owners ∧ Since w w') := by
      intro p₁ w₁ ha h
      have hiff : RemovesOnly (a :: removed) c.owners ↔ RemovesOnly removed c.owners := by
        simp only [RemovesOnly, List.mem_cons, exists_eq_or_imp]
        tauto
      rw [hiff]
      refine (ih h.ok ?_).mono ?_ ?_
      · rw [h.value, hc]
        rfl
      · exact fun p' w' h' => ⟨h'.1, h.trans h'.2⟩
      · exact fun _ w' h' => ⟨h'.1, h.since.trans h'.2⟩
    -- the last owner cannot be removed, and one that is not there is passed over
    by_cases ha : a ∈ c.owners
    · by_cases hl : c.owners.length = 1
      · rw [if_pos ha, if_pos hl]
        exact ⟨⟨hl, a, by simp, ha⟩, .refl w⟩
      · rw [if_pos ha, if_neg hl, sat_bind]
        refine (sat_removeOwner a hok).mono ?_ (fun _ _ h => h.elim)
        exact fun p₁ w₁ h => hrest p₁ w₁ (fun h' => hl h'.2) h
    · rw [if_neg ha]
      exact hrest p w (fun h' => ha h'.1) (ChainChanged.refl hok)

/-! ## The checks -/

section
variable (C : Crypto) (S : Storage σ)

/-- The reads and checks of `ApplyPlasmaTransaction`. -/
def checkPlasma (tx : Transaction) : M σ Unit := do
  let k ← readPlasma S tx
  if (← getObjects).tokenIsSet.lookup tx.tokenID = some true then
    .fail ("tokenID " ++ hexNat tx.tokenID.toNat ++ " has more than 1 transaction per SMT block")
  else if tx.prevBlock = 0 ∨ Dirties tx k.sobj.token then pure ()
  else .fail "Self-anchoring not allowed for now"

/-- The checks of an anchor against the record of its chain. -/
def chainError (anchorTx : AnchorTransaction) (c : AnchorBlock) : Option String :=
  if anchorTx.blockNumber = 0 then
    if 0 < c.owners.length ∨ 0 < c.endBlock then some "Invalid Anchor 0"
    else
      match anchorTx.getSigner C with
      | .error e => some e
      | .ok _ =>
        if 0 < anchorTx.extra.removedOwners.length then some "Can't remove user with Anchor 0 "
        else none
  else
    match anchorError C anchorTx c with
    | some e => some e
    | none =>
      if RemovesOnly anchorTx.extra.removedOwners (withOwners anchorTx.extra.addedOwners c.owners)
      then some "Can not remove only owner"
      else none

/-- The reads and checks of `ApplyAnchorTransaction`. -/
def checkAnchor (anchorTx : AnchorTransaction) : M σ Unit := do
  let chainObj ← getOrCreateChain S anchorTx.blockChainID
  let c ← deref (Objects.chain anchorTx.blockChainID) chainObj
  match chainError C anchorTx c with
  | some e => .fail e
  | none => pure ()

/-- The reads and checks that come before a transaction is stored. They change no map. -/
def checks : Tx → M σ Unit
  | .plasma tx => checkPlasma S tx
  | .anchor tx => checkAnchor C S tx

/-- The checks refuse the transaction. -/
def Refused (tx : Tx) (w : Env σ) : Prop := ∃ e w', checks C S tx w = .ok (.error e, w')

/-- The checks pass. -/
def Passed (tx : Tx) (w : Env σ) : Prop := ∃ w', checks C S tx w = .ok (.ok (), w')

theorem Passed.not_refused {tx : Tx} (h : Passed C S tx w) : ¬ Refused C S tx w := by
  rintro ⟨e, w', he⟩
  obtain ⟨w'', hp⟩ := h
  rw [hp] at he
  cases he

end

/-! ## The checks only read

Their outcome depends on the maps and the storage, not on the journal or the revisions.
-/

/-- The call reads the maps and the storage, and leaves the state database alone. -/
def ReadOnly {α : Type} (x : M σ α) : Prop := ∀ (w : Env σ) (db : StateDB),
  db.objects = w.db.objects →
    x { w with db := db } = (x w).map fun r => (r.1, { r.2 with db := db })

section
variable {α β : Type} {x : M σ α} {f : α → M σ β}

theorem ReadOnly.pure (a : α) : ReadOnly (pure a : M σ α) := fun _ _ _ => rfl

theorem ReadOnly.fail (e : String) : ReadOnly (Act.fail e : M σ α) := fun _ _ _ => rfl

theorem ReadOnly.panic (q : Panic) : ReadOnly (Act.panic q : M σ α) := fun _ _ _ => rfl

theorem ReadOnly.onStore (op : σ → Go (α × σ)) : ReadOnly (onStore op) := by
  intro w db _
  unfold Plasma.onStore
  rcases op w.store with q | ⟨a, st⟩
  · rfl
  · rfl

theorem ReadOnly.getObjects : ReadOnly (getObjects : M σ Objects) := by
  intro w db h
  change Except.ok (Except.ok db.objects, _) = _
  rw [h]
  rfl

theorem ReadOnly.db_eq (hx : ReadOnly x) {r : Except String α} (h : x w = .ok (r, w₁)) :
    w₁.db = w.db := by
  have h' := hx w w.db rfl
  change x w = _ at h'
  rw [h] at h'
  simp only [Except.map, Except.ok.injEq, Prod.mk.injEq, true_and] at h'
  rw [h']

theorem ReadOnly.bind (hx : ReadOnly x) (hf : ∀ a, ReadOnly (f a)) : ReadOnly (x >>= f) := by
  intro w db hdb
  have hxw := hx w db hdb
  rcases h : x w with q | ⟨e | a, w₁⟩
  · rw [h] at hxw
    change Act.bind x f _ = (Act.bind x f w).map _
    simp only [Act.bind, hxw, h]
    rfl
  · rw [h] at hxw
    rw [bind_error h, bind_error hxw]
    rfl
  · rw [h] at hxw
    rw [bind_ok h, bind_ok hxw]
    exact hf a w₁ db (by rw [hdb, hx.db_eq h])

theorem ReadOnly.orElse {g : String → M σ α} (hx : ReadOnly x) (hg : ∀ e, ReadOnly (g e)) :
    ReadOnly (x.orElse g) := by
  intro w db hdb
  have hxw := hx w db hdb
  unfold Act.orElse
  rcases h : x w with q | ⟨e | a, w₁⟩
  · rw [h] at hxw
    simp only [hxw]
    rfl
  · rw [h] at hxw
    simp only [hxw]
    exact hg e w₁ db (by rw [hdb, hx.db_eq h])
  · rw [h] at hxw
    simp only [hxw]
    rfl

theorem ReadOnly.deref (held : Objects → Option α) (q : Option (Ref α)) :
    ReadOnly (deref held q : M σ α) := by
  rcases q with _ | _ | a
  · exact .panic _
  · refine ReadOnly.getObjects.bind fun o => ?_
    rcases held o with _ | a
    · exact .panic _
    · exact .pure a
  · exact .pure a

end

section
variable (C : Crypto) (S : Storage σ)

theorem readOnly_getOrCreateAccount (addr : Address) : ReadOnly (getOrCreateAccount S addr) := by
  refine ReadOnly.getObjects.bind fun o => ?_
  rcases o.accountObjects.lookup addr with _ | _ | a
  · refine (ReadOnly.onStore _).bind fun r => ?_
    rcases r with e | _ | e | _ | e | a
    · exact .fail e
    · exact .pure _
    · exact .fail e
    · exact .pure _
    · exact .fail e
    · exact .pure _
  · exact .pure _
  · exact .pure _

theorem readOnly_getOrCreateChain (chainID : UInt64) : ReadOnly (getOrCreateChain S chainID) := by
  refine ReadOnly.getObjects.bind fun o => ?_
  rcases o.chainObjects.lookup chainID with _ | c
  · refine (ReadOnly.onStore _).bind fun r => ?_
    rcases r with e | _ | e | _ | e | a
    · exact .fail e
    · exact .pure _
    · exact .fail e
    · exact .pure _
    · exact .fail e
    · exact .pure _
  · exact .pure _

theorem readOnly_readToken (tx : Transaction) : ReadOnly (readToken S tx) := by
  unfold readToken
  split_ifs
  · refine (ReadOnly.onStore _).bind fun r => ?_
    rcases r with e | _ | _
    · exact .fail e
    · exact .pure _
    · exact .fail _
  · refine ReadOnly.bind ((ReadOnly.onStore _).bind fun r => ?_) fun sobj => ?_
    · rcases r with e | _ | e | _ | e | a
      · exact .fail e
      · exact .fail _
      · exact .fail e
      · exact .pure _
      · exact .fail e
      · exact .pure _
    · rcases sobj with _ | sobj
      · exact .panic _
      · dsimp only
        rcases transferError tx sobj with _ | e
        · exact .pure _
        · exact .fail e

theorem readOnly_checks (tx : Tx) : ReadOnly (checks C S tx) := by
  cases tx with
  | plasma tx =>
    have hread : ReadOnly (readPlasma S tx) :=
      ((readOnly_getOrCreateAccount S _).orElse fun _ => .pure _).bind fun _ =>
        (readOnly_getOrCreateAccount S _).bind fun _ =>
          (readOnly_readToken S tx).bind fun _ => .pure _
    refine hread.bind fun k => ReadOnly.getObjects.bind fun o => ?_
    split_ifs
    · exact .fail _
    · exact .pure _
    · exact .fail _
  | anchor tx =>
    refine (readOnly_getOrCreateChain S _).bind fun q => (ReadOnly.deref _ q).bind fun c => ?_
    rcases chainError C tx c with _ | e
    · exact .pure _
    · exact .fail e

/-- The checks refuse a transaction whatever the journal and the revisions are. -/
theorem refused_congr {tx : Tx} {db : StateDB} (h : db.objects = w.db.objects) :
    Refused C S tx { w with db := db } ↔ Refused C S tx w := by
  unfold Refused
  rw [readOnly_checks C S tx w db h]
  rcases checks C S tx w with q | ⟨e | a, w₁⟩
  · simp [Except.map]
  · simp [Except.map]
  · simp [Except.map]

end

/-! ## The changes against the checks -/

/-- What is in the maps once the objects of a transaction were put there, and was not before. -/
def Marked : Tx → Objects → Objects → Prop
  | .plasma tx, o, o' => o.tokenIsSet.lookup tx.tokenID ≠ some true ∧
      o'.tokenIsSet.lookup tx.tokenID = some true
  | .anchor tx, o, o' =>
      o'.atxList.lookup tx.blockChainID = some (addToAtxList tx o)

theorem Marked.ne {tx : Tx} {o o' : Objects} (h : Marked tx o o') : o' ≠ o := by
  rintro rfl
  cases tx with
  | plasma tx => exact h.1 h.2
  | anchor tx =>
    -- the list of anchors has grown
    simp only [Marked, addToAtxList] at h
    split at h
    · rename_i aobj ha
      rw [ha] at h
      have hl := congrArg (fun a => a.map fun b : AnchorBlock => b.anchors.length) h
      simp [AnchorBlock.addAnchorTx] at hl
    · rename_i ha
      rw [ha] at h
      cases h

/-- Undoing does not take the marks away. -/
theorem Marked.undo {tx : Tx} {o o' : Objects} (h : Marked tx o o') (es : List JournalEntry) :
    Marked tx o (undo es o') := by
  have hf := undo_frame es o'
  cases tx with
  | plasma tx => exact ⟨h.1, by rw [hf.1]; exact h.2⟩
  | anchor tx =>
    simp only [Marked, hf.2]
    exact h

theorem Since.of_db (h : w₁.db = w.db) : Since w w₁ :=
  ⟨⟨[], by simp [h], by rw [h]; rfl⟩, fun _ ha => by rw [h]; exact ha,
    fun _ hc => by rw [h]; exact hc, by rw [h], by rw [h]⟩

theorem Objects.place_tokenIsSet (addr : Address) (q : Option (Ref Account)) (o : Objects) :
    (o.place addr q).tokenIsSet = o.tokenIsSet := by
  rcases q with _ | _ | a
  · rfl
  · rfl
  · rfl

theorem appended_tokenIsSet (C : Crypto) (n : ℕ) (tx : Transaction) (k : Work) (o : Objects) :
    (appended C n tx k o).tokenIsSet = o.tokenIsSet.insert tx.tokenID true := by
  simp only [appended]
  split_ifs
  · rw [Objects.place_tokenIsSet, Objects.place_tokenIsSet]
  · rw [Objects.place_tokenIsSet]

/-- Nothing about tokens and accounts has changed. -/
structure SameLedger (o o' : Objects) : Prop where
  tokenObjects : o'.tokenObjects = o.tokenObjects
  tokenIsSet : o'.tokenIsSet = o.tokenIsSet
  thashList : o'.thashList = o.thashList
  accountObjects : o'.accountObjects = o.accountObjects

theorem SameLedger.refl (o : Objects) : SameLedger o o := ⟨rfl, rfl, rfl, rfl⟩

theorem SameLedger.trans {o o₁ o₂ : Objects} (h : SameLedger o o₁) (h' : SameLedger o₁ o₂) :
    SameLedger o o₂ :=
  ⟨h'.1.trans h.1, h'.2.trans h.2, h'.3.trans h.3, h'.4.trans h.4⟩

/-- The revisions are those of another state. -/
def SameRevisions (w w' : Env σ) : Prop :=
  w'.db.validRevisions = w.db.validRevisions ∧ w'.db.nextRevisionId = w.db.nextRevisionId

theorem Since.sameRevisions (h : Since w w₁) : SameRevisions w w₁ := ⟨h.revisions, h.nextId⟩

section
variable (C : Crypto) (S : Storage σ) (n : ℕ)

/-- `ApplyPlasmaTransaction` up to `StoreTransaction`: it fails where the checks refuse. -/
theorem sat_updatePlasma_checks (tx : Transaction) :
    Sat (updatePlasma C S n tx) w
      (fun _ w' => Passed C S (.plasma tx) w ∧ Marked (.plasma tx) w.db.objects w'.db.objects ∧
        SameRevisions w w')
      (fun _ w' => Refused C S (.plasma tx) w ∧ Since w w') := by
  rw [sat_updatePlasma]
  refine ((sat_self (readPlasma S tx) w).and (sat_readPlasma S)).mono ?_ ?_
  · rintro k w₁ ⟨hread, hdb, hk, ht, hd, -⟩
    rw [← hdb] at hk
    -- the checks after the reads: at most one transaction per token, and some change
    have hcheck : checks C S (.plasma tx) w =
        (if w₁.db.objects.tokenIsSet.lookup tx.tokenID = some true then
          .fail ("tokenID " ++ hexNat tx.tokenID.toNat
            ++ " has more than 1 transaction per SMT block")
        else if tx.prevBlock = 0 ∨ Dirties tx k.sobj.token then pure ()
        else .fail "Self-anchoring not allowed for now" : M σ Unit) w₁ := by
      rw [checks, checkPlasma, bind_ok hread]
      rfl
    refine (sat_changePlasma hk fun h => owner_of_transferError (ht h)).mono ?_
      (fun _ _ h => h.elim)
    intro k' w₂ hc
    have hsince : Since w w₂ := (Since.of_db hdb).trans hc.since
    obtain ⟨m, hm⟩ := hc.frame
    have hset : w₂.db.objects.tokenIsSet = w₁.db.objects.tokenIsSet := by rw [hm]
    have hdirt : k'.dirtied = true ↔ tx.prevBlock = 0 ∨ Dirties tx k.sobj.token := by
      rw [hc.dirtied, hd]
      simp
    apply sat_appendObjects
    · intro hns hd'
      rw [hset] at hns
      refine ⟨⟨w₁, ?_⟩, ⟨?_, ?_⟩, hsince.sameRevisions⟩
      · rw [hcheck, if_neg hns, if_pos (hdirt.mp hd')]
        rfl
      · rw [← hdb]
        exact hns
      · simp [Env.log, appended_tokenIsSet, Finmap.lookup_insert]
    · intro _ herr
      refine ⟨?_, hsince⟩
      rw [hset] at herr
      by_cases hs : w₁.db.objects.tokenIsSet.lookup tx.tokenID = some true
      · exact ⟨_, w₁, by rw [hcheck, if_pos hs]; rfl⟩
      · have hnd : ¬ (tx.prevBlock = 0 ∨ Dirties tx k.sobj.token) := by
          rw [← hdirt]
          simpa [hs] using herr
        exact ⟨_, w₁, by rw [hcheck, if_neg hs, if_neg hnd]; rfl⟩
  · rintro e w₁ ⟨hread, hdb⟩
    exact ⟨⟨e, w₁, bind_error hread⟩, .of_db hdb⟩

theorem sat_getOrCreateChain (chainID : UInt64) :
    Sat (getOrCreateChain S chainID) w
      (fun p w' => w'.db = w.db ∧ ChainRefOk w.db.objects chainID p)
      (fun _ w' => w'.db = w.db) := by
  simp only [getOrCreateChain, sat_bind, sat_getObjects]
  rcases hl : w.db.objects.chainObjects.lookup chainID with _ | c
  · simp only [sat_bind, sat_onStore]
    intro r st _
    have hok : ∀ p, ChainRefOk w.db.objects chainID p := fun _ _ _ => hl
    rcases r with e | _ | e | _ | e | c
    · exact rfl
    · exact ⟨rfl, hok _⟩
    · exact rfl
    · exact ⟨rfl, hok _⟩
    · exact rfl
    · exact ⟨rfl, hok _⟩
  · refine ⟨rfl, ?_⟩
    rintro c' ⟨⟩

/-- The checks pass, and the object has the new owners. -/
abbrev OwnersChanged (tx : AnchorTransaction) (p : Option (Ref AnchorBlock)) (w : Env σ)
    (p' : Option (Ref AnchorBlock)) (w' : Env σ) : Prop :=
  ∃ c f, Ref.value (w.db.objects.chain tx.blockChainID) p = some c ∧ chainError C tx c = none ∧
    f c = { c with owners := ownersAfter C tx c.owners } ∧ ChainChanged tx.blockChainID f p w p' w'

/-- The checks refuse. -/
abbrev OwnersRefused (tx : AnchorTransaction) (p : Option (Ref AnchorBlock)) (w w' : Env σ) :
    Prop :=
  ∃ c e, Ref.value (w.db.objects.chain tx.blockChainID) p = some c ∧ chainError C tx c = some e ∧
    Since w w'

/-- The branch of block 0 fails where the checks refuse. -/
theorem sat_registerChain (tx : AnchorTransaction) (h0 : tx.blockNumber = 0)
    (hok : ChainRefOk w.db.objects tx.blockChainID p) :
    Sat (registerChain C tx p) w
      (OwnersChanged C tx p w) (fun _ w' => OwnersRefused C tx p w w') := by
  simp only [registerChain, sat_bind, sat_deref]
  intro c hc
  -- the checks come in this order: registered before, signer, removed owners
  by_cases hreg : 0 < c.owners.length ∨ 0 < c.endBlock
  · rw [if_pos hreg]
    exact ⟨c, _, hc, by rw [chainError, if_pos h0, if_pos hreg], .refl w⟩
  · rw [if_neg hreg]
    rcases hs : tx.getSigner C with e | signer
    · exact ⟨c, e, hc, by rw [chainError, if_pos h0, if_neg hreg, hs], .refl w⟩
    · simp only [sat_bind]
      refine (sat_addOwner signer hok).mono ?_ (fun _ _ h => h.elim)
      intro p₁ w₁ h₁
      by_cases hrem : 0 < tx.extra.removedOwners.length
      · rw [if_pos hrem]
        refine ⟨c, "Can't remove user with Anchor 0 ", hc, ?_, h₁.since⟩
        rw [chainError, if_pos h0, if_neg hreg, hs]
        exact if_pos hrem
      · rw [if_neg hrem]
        refine (sat_addOwners _ h₁.ok).mono ?_ (fun _ _ h => h.elim)
        intro p₂ w₂ h₂
        refine ⟨c, _, hc, ?_, ?_, h₁.trans h₂⟩
        · rw [chainError, if_pos h0, if_neg hreg, hs]
          exact if_neg hrem
        · rw [ownersAfter, registrant, if_pos h0, hs]
          rfl

/-- The branch of a later block fails where the checks refuse. -/
theorem sat_extendChain (tx : AnchorTransaction) (h0 : tx.blockNumber ≠ 0)
    (hok : ChainRefOk w.db.objects tx.blockChainID p) :
    Sat (extendChain C tx p) w
      (OwnersChanged C tx p w) (fun _ w' => OwnersRefused C tx p w w') := by
  simp only [extendChain, sat_bind, sat_deref]
  intro c hc
  rcases he : anchorError C tx c with _ | e
  · simp only [sat_bind]
    refine (sat_addOwners _ hok).mono ?_ (fun _ _ h => h.elim)
    intro p₁ w₁ h₁
    have hc₁ := h₁.value
    rw [hc] at hc₁
    -- owners are added before the removals are checked
    refine (sat_removeOwners tx.extra.removedOwners h₁.ok hc₁).mono ?_ ?_
    · rintro p₂ w₂ ⟨hn, h₂⟩
      refine ⟨c, _, hc, ?_, ?_, h₁.trans h₂⟩
      · rw [chainError, if_neg h0, he]
        exact if_neg hn
      · rw [ownersAfter, registrant, if_neg h0, List.append_nil]
        rfl
    · rintro _ w₂ ⟨hr, h₂⟩
      refine ⟨c, "Can not remove only owner", hc, ?_, h₁.since.trans h₂⟩
      rw [chainError, if_neg h0, he]
      exact if_pos hr
  · exact ⟨c, e, hc, by rw [chainError, if_neg h0, he], .refl w⟩

/-- Both branches. -/
theorem sat_changeOwners (tx : AnchorTransaction)
    (hok : ChainRefOk w.db.objects tx.blockChainID p) :
    Sat (if tx.blockNumber = 0 then registerChain C tx p else extendChain C tx p) w
      (OwnersChanged C tx p w) (fun _ w' => OwnersRefused C tx p w w') := by
  by_cases h0 : tx.blockNumber = 0
  · rw [if_pos h0]
    exact sat_registerChain C tx h0 hok
  · rw [if_neg h0]
    exact sat_extendChain C tx h0 hok

/-- A setter of a chain object changes nothing but the chain objects and the journal. -/
theorem sat_updateChain_atxList (chainID : UInt64) (entry : AnchorBlock → JournalEntry)
    (f : AnchorBlock → AnchorBlock) (p : Option (Ref AnchorBlock)) :
    Sat (updateChain chainID entry f p) w
      (fun _ w' => w'.db.objects.atxList = w.db.objects.atxList ∧ SameRevisions w w' ∧
        SameLedger w.db.objects w'.db.objects) (fun _ _ => False) := by
  refine (sat_updateChain chainID entry f p).mpr fun c _ => ⟨?_, ⟨rfl, rfl⟩, ?_⟩
  all_goals rcases p with _ | _ | b
  · rfl
  · rfl
  · rfl
  · exact .refl _
  · exact ⟨rfl, rfl, rfl, rfl⟩
  · exact .refl _

/-- The maps with the chain object and the anchor. -/
def Objects.anchored (tx : AnchorTransaction) (c : AnchorBlock) (o : Objects) : Objects :=
  { o with
    chainObjects := o.chainObjects.insert tx.blockChainID c
    chainIsSet := o.chainIsSet.insert tx.blockChainID true
    atxList := o.atxList.insert tx.blockChainID (addToAtxList tx o) }

/-- `appendAnchorObjects` step by step: `I` holds when the start block was set or not, and then the
end block is set and the maps are changed. -/
theorem sat_appendAnchorObjects_of {tx : AnchorTransaction}
    {I : Option (Ref AnchorBlock) → Env σ → Prop} {Q : Env σ → Prop}
    (hset : (w.db.objects.chainIsSet.lookup tx.blockChainID).isSome = true → I p w)
    (hstart : ¬ (w.db.objects.chainIsSet.lookup tx.blockChainID).isSome = true →
      Sat (setStartBlock tx.blockChainID tx.blockNumber p) w I (fun _ _ => False))
    (hend : ∀ q w₁, I q w₁ → Sat (setEndBlock tx.blockChainID tx.blockNumber q) w₁
      (fun q' w₂ => ∀ c, Ref.value (w₂.db.objects.chain tx.blockChainID) q' = some c →
        Q { w₂ with db := { w₂.db with objects := w₂.db.objects.anchored tx c } })
      (fun _ _ => False)) :
    Sat (appendAnchorObjects tx p) w (fun _ w' => Q w') (fun _ _ => False) := by
  simp only [appendAnchorObjects, sat_bind, sat_getObjects]
  split_ifs with hs
  · simp only [sat_bind, sat_pure, sat_deref, appendAnchor, sat_modifyObjects]
    exact hend p w (hset hs)
  · simp only [sat_bind, sat_deref, appendAnchor, sat_modifyObjects]
    exact (hstart hs).mono hend (fun _ _ h => h)

theorem sat_appendAnchorObjects (tx : AnchorTransaction) :
    Sat (appendAnchorObjects tx p) w
      (fun _ w' => Marked (.anchor tx) w.db.objects w'.db.objects ∧ SameRevisions w w' ∧
        SameLedger w.db.objects w'.db.objects) (fun _ _ => False) := by
  refine sat_appendAnchorObjects_of (fun _ => ⟨rfl, ⟨rfl, rfl⟩, .refl _⟩)
    (fun _ => sat_updateChain_atxList _ _ _ p) ?_
  rintro q w₁ ⟨hl, hr, hs⟩
  refine (sat_updateChain_atxList _ _ _ q).mono ?_ (fun _ _ h => h)
  rintro q' w₂ ⟨hl₂, hr₂, hs₂⟩ c -
  have hs' := hs.trans hs₂
  refine ⟨?_, ⟨hr₂.1.trans hr.1, hr₂.2.trans hr.2⟩, ⟨hs'.1, hs'.2, hs'.3, hs'.4⟩⟩
  simp only [Marked, Objects.anchored, Finmap.lookup_insert, addToAtxList, hl₂, hl]

theorem deref_of_value {α : Type} {held : Objects → Option α} {q : Option (Ref α)} {a : α}
    (h : Ref.value (held w.db.objects) q = some a) :
    (deref held q : M σ α) w = .ok (.ok a, w) := by
  rcases q with _ | _ | b
  · cases h
  · change held w.db.objects = some a at h
    rw [deref, bind_ok (show (getObjects : M σ Objects) w = .ok (.ok w.db.objects, w) from rfl), h]
    rfl
  · cases h
    rfl

/-- `ApplyAnchorTransaction` up to `StoreAnchorTransaction`: it fails where the checks refuse. -/
theorem sat_updateAnchor_checks (tx : AnchorTransaction) :
    Sat (updateAnchor C S tx) w
      (fun _ w' => Passed C S (.anchor tx) w ∧ Marked (.anchor tx) w.db.objects w'.db.objects ∧
        SameRevisions w w' ∧ SameLedger w.db.objects w'.db.objects)
      (fun _ w' => Refused C S (.anchor tx) w ∧ Since w w') := by
  simp only [updateAnchor, updateOwners, sat_bind]
  refine ((sat_self (getOrCreateChain S tx.blockChainID) w).and
    (sat_getOrCreateChain S tx.blockChainID)).mono ?_ ?_
  · rintro q w₁ ⟨hread, hdb, hok⟩
    rw [← hdb] at hok
    have hcheck : ∀ c, Ref.value (w₁.db.objects.chain tx.blockChainID) q = some c →
        checks C S (.anchor tx) w = (match chainError C tx c with
          | some e => .fail e
          | none => pure () : M σ Unit) w₁ := by
      intro c hc
      rw [checks, checkAnchor, bind_ok hread, bind_ok (deref_of_value hc)]
    -- the owners, and then the maps
    refine (sat_changeOwners C tx hok).mono ?_ ?_
    · rintro p₂ w₂ ⟨c, f, hc, hnone, -, h₂⟩
      refine (sat_appendAnchorObjects tx).mono ?_ (fun _ _ h => h.elim)
      rintro _ w₃ ⟨hm, hr, hl⟩
      obtain ⟨m, hm₂⟩ := h₂.frame
      refine ⟨⟨w₁, ?_⟩, ?_, ?_, ?_⟩
      · rw [hcheck c hc, hnone]
        rfl
      · simpa only [Marked, addToAtxList, hm₂, hdb] using hm
      · have hs := ((Since.of_db hdb).trans h₂.since).sameRevisions
        exact ⟨hr.1.trans hs.1, hr.2.trans hs.2⟩
      · rw [← hdb]
        refine SameLedger.trans ?_ hl
        rw [hm₂]
        exact ⟨rfl, rfl, rfl, rfl⟩
    · rintro _ w₂ ⟨c, e, hc, he, h₂⟩
      refine ⟨⟨e, w₁, ?_⟩, (Since.of_db hdb).trans h₂⟩
      rw [hcheck c hc, he]
      rfl
  · rintro e w₁ ⟨hread, hdb⟩
    exact ⟨⟨e, w₁, bind_error hread⟩, .of_db hdb⟩

theorem sat_updateObjects (tx : Tx) :
    Sat (updateObjects C S n tx) w
      (fun _ w' => Passed C S tx w ∧ Marked tx w.db.objects w'.db.objects ∧ SameRevisions w w')
      (fun _ w' => Refused C S tx w ∧ Since w w') := by
  cases tx with
  | plasma tx => exact sat_updatePlasma_checks C S n tx
  | anchor tx =>
    exact (sat_updateAnchor_checks C S tx).mono (fun _ _ h => ⟨h.1, h.2.1, h.2.2.1⟩)
      (fun _ _ h => h)

/-- Storing a transaction leaves the state database alone. -/
theorem sat_storeTx (tx : Tx) :
    Sat (storeTx C S n tx) w (fun _ w' => w'.db = w.db) (fun _ w' => w'.db = w.db) := by
  have hset : ∀ b v (w : Env σ), Sat (setChunk S b v) w (fun _ w' => w'.db = w.db)
      (fun _ w' => w'.db = w.db) := by
    intro b v w
    simp only [setChunk, sat_bind, sat_onStore]
    intro r st _
    rcases r with e | _
    · exact rfl
    · exact rfl
  -- none of the writes touches the state database
  have hbind : ∀ (x y : M σ Unit) (w : Env σ),
      (∀ w, Sat x w (fun _ w' => w'.db = w.db) (fun _ w' => w'.db = w.db)) →
      (∀ w, Sat y w (fun _ w' => w'.db = w.db) (fun _ w' => w'.db = w.db)) →
      Sat (do x; y) w (fun _ w' => w'.db = w.db) (fun _ w' => w'.db = w.db) := by
    intro x y w hx hy
    rw [sat_bind]
    refine (hx w).mono (fun _ w₁ h₁ => ?_) (fun _ _ h => h)
    exact (hy w₁).mono (fun _ _ h => h.trans h₁) (fun _ _ h => h.trans h₁)
  cases tx with
  | plasma tx =>
    refine hbind _ _ w (hset _ _) fun w => hbind _ _ w (hset _ _) fun w => ?_
    split_ifs with h0
    · refine hbind _ _ w (hset _ _) fun w => ?_
      dsimp only
      split_ifs
      · exact rfl
      · exact hset _ _ w
    · exact rfl
  | anchor tx =>
    exact hbind _ _ w (hset _ _) fun w => hbind _ _ w (hset _ _) fun w => hset _ _ w

/-! ## Whole runs of a state database -/

/-- Every snapshot is older than the next one. -/
def StateDB.Ordered (db : StateDB) : Prop := ∀ r ∈ db.validRevisions, r.id < db.nextRevisionId

/-- The states of a `StateDB` that the minter uses: from a new one on, by committing transactions of
blocks of any number, while the storage may change in any way. -/
inductive Reachable : Env σ → Prop where
  | new (st : σ) : Reachable ⟨newStateDB, st⟩
  | commit {w w' : Env σ} {n : ℕ} {tx : Tx} {r : Except String Unit} (h : Reachable w)
      (hc : commitTransaction C S n tx w = .ok (r, w')) : Reachable w'
  | store {w : Env σ} (h : Reachable w) (st : σ) : Reachable { w with store := st }

/-- The state after a snapshot. -/
def Env.snap (w : Env σ) : Env σ :=
  { w with db := { w.db with
    nextRevisionId := w.db.nextRevisionId + 1
    validRevisions := w.db.validRevisions ++ [⟨w.db.nextRevisionId, w.db.journal.length⟩] } }

theorem refused_snap (tx : Tx) : Refused C S tx w.snap ↔ Refused C S tx w := refused_congr C S rfl

theorem snapshot_eq (w : Env σ) :
    (snapshot : M σ ℕ) w = .ok (.ok w.db.nextRevisionId, w.snap) := rfl

theorem StateDB.Ordered.next (hw : w.db.Ordered) (hr : w₁.db.validRevisions = w.db.validRevisions)
    (hn : w₁.db.nextRevisionId = w.db.nextRevisionId + 1) : w₁.db.Ordered := by
  intro r hmem
  rw [hr] at hmem
  rw [hn]
  exact Nat.lt_succ_of_lt (hw r hmem)

theorem StateDB.Ordered.snap (hw : w.db.Ordered) : w.snap.db.Ordered := by
  intro r hr
  rcases List.mem_append.mp hr with h | h
  · exact Nat.lt_succ_of_lt (hw r h)
  · rw [List.mem_singleton.mp h]
    exact Nat.lt_succ_self _

/-- A failed transaction is reverted to the snapshot. -/
theorem sat_revertFailed (err : String) (hw : w.db.Ordered) (hsame : SameRevisions w.snap w₁) :
    Sat (revertFailed S w.db.nextRevisionId err) w₁ (fun _ _ => False)
      (fun _ w' => w'.db.Ordered ∧
        w'.db.objects = undo (w₁.db.journal.drop w.db.journal.length) w₁.db.objects) := by
  rw [revertFailed, sat_bind, sat_orElse]
  refine (sat_revertToSnapshot S (r := ⟨w.db.nextRevisionId, w.db.journal.length⟩) hsame.1
    fun r' hr' => hw r' hr').mono ?_ (fun _ _ h => h.elim)
  rintro _ w' ⟨ho, hv, hn, -⟩
  exact ⟨hw.next hv (hn.trans hsame.2), ho⟩

/-- One call of `commitTransaction`. -/
theorem sat_commitTransaction (tx : Tx) (hw : w.db.Ordered) :
    Sat (commitTransaction C S n tx) w (fun _ w' => w'.db.Ordered)
      (fun _ w' => w'.db.Ordered ∧ (w'.db.objects = w.db.objects ↔ Refused C S tx w)) := by
  unfold Sat
  rw [commitTransaction, bind_ok (snapshot_eq w)]
  change Sat _ w.snap _ _
  rw [sat_orElse, applyTransaction_eq, sat_bind]
  refine (sat_updateObjects C S n tx).mono ?_ ?_
  · rintro _ w₁ ⟨hpass, hmark, hsame⟩
    refine (sat_storeTx C S (n + 1) tx).mono ?_ ?_
    · intro _ w₂ hdb r hr
      rw [hdb, hsame.1] at hr
      rw [hdb, hsame.2]
      exact hw.snap r hr
    · -- storing fails: the marks stay
      intro e w₂ hdb
      have hsame₂ : SameRevisions w.snap w₂ := by
        rw [SameRevisions, hdb]
        exact hsame
      refine (sat_revertFailed S e hw hsame₂).mono (fun _ _ h => h.elim) ?_
      rintro _ w' ⟨hord, ho⟩
      refine ⟨hord, iff_of_false ?_ ?_⟩
      · rw [ho, hdb]
        exact (hmark.undo _).ne
      · rw [← refused_snap]
        exact hpass.not_refused
  · -- the checks refuse: the journal restores the maps
    rintro e w₁ ⟨href, hsince⟩
    refine (sat_revertFailed S e hw hsince.sameRevisions).mono (fun _ _ h => h.elim) ?_
    rintro _ w' ⟨hord, ho⟩
    refine ⟨hord, iff_of_true ?_ ((refused_snap C S tx).mp href)⟩
    obtain ⟨es, hj, hu⟩ := hsince.undone
    have hdrop : w₁.db.journal.drop w.db.journal.length = es := by
      rw [hj]
      exact List.drop_left
    rw [ho, hdrop, hu]
    rfl

theorem Reachable.ordered (h : Reachable C S w) : w.db.Ordered := by
  induction h with
  | new st => exact fun r hr => by cases hr
  | @commit w w' n tx r _ hc ih =>
    have hs := sat_commitTransaction C S n tx ih
    rcases r with e | _
    · exact (hs.error hc).1
    · exact hs.ok hc
  | store _ _ ih => exact ih

/-- A transaction that `commitTransaction` rejects leaves the maps as they were exactly if the
checks before it is stored refuse it. -/
theorem rejected_unchanged_iff {w w' : Env σ} {tx : Tx} {e : String} (hw : Reachable C S w)
    (h : commitTransaction C S n tx w = .ok (.error e, w')) :
    w'.db.objects = w.db.objects ↔ Refused C S tx w :=
  ((sat_commitTransaction C S n tx hw.ordered).error h).2

end

/-! ## A store that fails -/

/-- A hash that is always one, with no signatures. -/
def toyCrypto : Crypto where
  keccak _ := ⟨Bytes.zeros 31 ++ [1], by decide⟩
  ecrecover _ _ := .error "no signature"
  operatorAddr := zeroAddress
  operatorSign _ := .error "no key"

/-- A storage without records. -/
def emptyStorage : Storage Unit where
  getToken _ st := .ok (.notFound, st)
  hasToken _ st := .ok (.ok false, st)
  getAccount _ st := .ok (.notFound, st)
  getChain _ st := .ok (.notFound, st)
  setChunk _ _ st := .ok (.ok (), st)

/-- One in which no chunk can be written. -/
def fullStorage : Storage Unit :=
  { emptyStorage with setChunk := fun _ _ st => .ok (.error "disk full", st) }

/-- A token transaction of token 1 by the operator. -/
def toyTransaction (prevBlock : UInt64) : Transaction where
  tokenID := 1
  denomination := 5
  depositIndex := 0
  prevBlock := prevBlock
  prevOwner := zeroAddress
  recipient := zeroAddress
  allowance := 0
  spent := 0
  sig := emptySlice
  balance := 5

/-- After a deposit, a transfer of its token in the same block is refused by the checks. -/
theorem rejected_unchanged_iff_transfer : ∃ w w',
    commitTransaction toyCrypto emptyStorage 0 (.plasma (toyTransaction 0)) ⟨newStateDB, ()⟩ =
        .ok (.ok (), w) ∧
      w.db.objects.tokenIsSet.lookup 1 = some true ∧
      commitTransaction toyCrypto emptyStorage 0 (.plasma (toyTransaction 1)) w =
        .ok (.error "[deep:poa:commitTransaction] Not found", w') ∧
      (w'.db.objects = w.db.objects ↔
        Refused toyCrypto emptyStorage (.plasma (toyTransaction 1)) w) :=
  have hreach := Reachable.commit (w := ⟨newStateDB, ()⟩) (n := 0) (.new ())
    (rfl : commitTransaction toyCrypto emptyStorage 0 (.plasma (toyTransaction 0)) _ = _)
  ⟨_, _, rfl, rfl, rfl, rejected_unchanged_iff _ _ 0 hreach rfl⟩

/-- A good deposit that cannot be stored is rejected, and its token stays in the maps. -/
theorem failedStore_leaves_token : ∃ w',
    Reachable toyCrypto fullStorage ⟨newStateDB, ()⟩ ∧
      commitTransaction toyCrypto fullStorage 0 (.plasma (toyTransaction 0)) ⟨newStateDB, ()⟩ =
        .ok (.error "[deep:poa:commitTransaction] disk full", w') ∧
      w'.db.objects.tokenIsSet.lookup 1 = some true ∧ w'.db.objects ≠ newStateDB.objects := by
  refine ⟨_, .new (), rfl, rfl, ?_⟩
  intro h
  have hl := congrArg (fun o => o.tokenIsSet.lookup 1) h
  cases hl

end GoPlasma.Plasma
