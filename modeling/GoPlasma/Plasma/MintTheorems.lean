import GoPlasma.Plasma.AtomicityTheorems
import GoPlasma.Plasma.Node

/-!
# What a block does to the tokens and accounts

`Accepted` says what a token transaction has done once `commitTransaction` has accepted it, on a
state database opened at a block. Transactions of either kind that are rejected do nothing.
`Minted` is the result for a whole block: for each token, the block has no transaction and its
record stays, or it has one and the record is the one that the transaction makes of it.
-/

namespace GoPlasma.Plasma

open Act

variable {C : Crypto} {T : Tries} {n : ℕ} {w w₁ : Env Unit} {tx : Transaction}

/-! ## Records as the state database sees them -/

/-- The account of an address: the object in the map, or the record in the trie, or a new one. A
record that does not decode gives `none`. -/
def currentAccount (T : Tries) (o : Objects) (addr : Address) : Option Account :=
  match o.accountObjects.lookup addr with
  | some p => p
  | none =>
    match T.accounts.lookup (shortAddr addr) with
    | none => some ⟨[], 0, 0⟩
    | some p => p

/-- The token of a deposit. -/
def depositToken (tx : Transaction) : Token :=
  ⟨tx.denomination, 0, tx.recipient, tx.denomination, 0, 0⟩

/-- The token that a transaction finds: a deposit makes one that is not there yet, and a transfer is
checked against the one that is. -/
def Finds (T : Tries) (tx : Transaction) (t : Token) : Prop :=
  if tx.prevBlock = 0 then T.tokens.lookup tx.tokenID = none ∧ t = depositToken tx
  else T.tokens.lookup tx.tokenID = some t ∧ transferError tx ⟨t, false⟩ = none

/-- The record of the token after the transaction, in the block after block `n`. -/
def tokenRecord (n : ℕ) (tx : Transaction) (t : Token) : Token :=
  { tokenAfter tx t with prevBlock := n + 1 }

/-- What an accepted transaction has done to the maps. -/
structure Accepted (C : Crypto) (n : ℕ) (T : Tries) (tx : Transaction) (t : Token)
    (o o' : Objects) : Prop where
  finds : Finds T tx t
  dirties : tx.prevBlock = 0 ∨ Dirties tx t
  notSet : o.tokenIsSet.lookup tx.tokenID ≠ some true
  tokenObjects : o'.tokenObjects = o.tokenObjects.insert tx.tokenID ⟨tokenRecord n tx t, false⟩
  tokenIsSet : o'.tokenIsSet = o.tokenIsSet.insert tx.tokenID true
  thashList : o'.thashList = o.thashList.insert tx.tokenID (tx.hash C)
  recipient : currentAccount T o' tx.recipient =
    (currentAccount T o tx.recipient).map (recipientAfter tx t)
  sender : tx.prevOwner ≠ tx.recipient → currentAccount T o' tx.prevOwner =
    (currentAccount T o tx.prevOwner).map (senderAfter tx t)
  others : ∀ addr, addr ≠ tx.recipient → addr ≠ tx.prevOwner →
    o'.accountObjects.lookup addr = o.accountObjects.lookup addr

/-! ## Reading from the tries -/

theorem sat_getOrCreateAccount_map (addr : Address) :
    Sat (getOrCreateAccount (mapStorage T) addr) w
      (fun p w' => w' = w ∧ RefOk w.db.objects addr p ∧
        Ref.value (w.db.objects.account addr) p = currentAccount T w.db.objects addr)
      (fun _ w' => w' = w ∧ currentAccount T w.db.objects addr = none) := by
  simp only [getOrCreateAccount, sat_bind, sat_getObjects]
  rcases hl : w.db.objects.accountObjects.lookup addr with _ | _ | a
  · simp only [sat_bind, sat_onStore, mapStorage]
    rintro r st ⟨⟩
    rcases ht : T.accounts.lookup (shortAddr addr) with _ | _ | a
    · exact ⟨rfl, hl, by simp [Ref.value, currentAccount, hl, ht]⟩
    · exact ⟨rfl, by simp [currentAccount, hl, ht]⟩
    · exact ⟨rfl, hl, by simp [Ref.value, currentAccount, hl, ht]⟩
  · exact ⟨rfl, trivial, by simp [Ref.value, currentAccount, hl]⟩
  · exact ⟨rfl, by simp [RefOk, Objects.account, hl],
      by simp [Ref.value, currentAccount, Objects.account, hl]⟩

theorem sat_readToken_map :
    Sat (readToken (mapStorage T) tx) w
      (fun sobj w' => w' = w ∧ sobj.deleted = false ∧ Finds T tx sobj.token)
      (fun _ w' => w' = w) := by
  by_cases h : tx.prevBlock = 0
  · simp only [readToken, createDeposit, h, if_true, sat_bind, sat_onStore, mapStorage]
    rintro r st ⟨⟩
    rcases ht : T.tokens.lookup tx.tokenID with _ | t
    · exact ⟨rfl, rfl, by simp [Finds, h, ht, depositToken]⟩
    · exact rfl
  · simp only [readToken, getTokenObject, h, if_false, sat_bind, sat_onStore, mapStorage]
    rintro r st ⟨⟩
    rcases ht : T.tokens.lookup tx.tokenID with _ | t
    · exact rfl
    · simp only [sat_pure]
      rcases he : transferError tx ⟨t, false⟩ with _ | e
      · exact ⟨rfl, rfl, by simp [Finds, h, ht, he]⟩
      · exact rfl

/-- The reads of a transaction give the records, and change nothing. -/
abbrev Work.Read (T : Tries) (tx : Transaction) (w : Env Unit) (k : Work) (w' : Env Unit) : Prop :=
  w' = w ∧ k.Ok tx w.db.objects ∧ k.sobj.deleted = false ∧
    Finds T tx k.sobj.token ∧ k.dirtied = false ∧ k.senderdirtied = false ∧
    Ref.value (w.db.objects.account tx.recipient) k.recipientobj =
      currentAccount T w.db.objects tx.recipient ∧
    Ref.value (w.db.objects.account tx.prevOwner) k.senderobj =
      currentAccount T w.db.objects tx.prevOwner

theorem sat_readPlasma_map :
    Sat (readPlasma (mapStorage T) tx) w
      (Work.Read T tx w) (fun _ _ => True) := by
  have hrest : ∀ p, RefOk w.db.objects tx.prevOwner p →
      Ref.value (w.db.objects.account tx.prevOwner) p =
        currentAccount T w.db.objects tx.prevOwner →
      Sat (do
        let r ← getOrCreateAccount (mapStorage T) tx.recipient
        let sobj ← readToken (mapStorage T) tx
        pure (⟨sobj, p, r, false, false⟩ : Work)) w
        (Work.Read T tx w) (fun _ _ => True) := by
    intro p hp hv
    rw [sat_bind]
    refine (sat_getOrCreateAccount_map tx.recipient).mono ?_ (fun _ _ _ => trivial)
    rintro r w' ⟨rfl, hr, hrv⟩
    rw [sat_bind]
    refine sat_readToken_map.mono ?_ (fun _ _ _ => trivial)
    rintro sobj w' ⟨rfl, hd, hf⟩
    exact ⟨rfl, ⟨hr, hp⟩, hd, hf, rfl, rfl, hrv, hv⟩
  rw [readPlasma, sat_bind, sat_orElse]
  refine (sat_getOrCreateAccount_map tx.prevOwner).mono ?_ ?_
  · rintro p w' ⟨rfl, hp, hv⟩
    exact hrest p hp hv
  · -- the record of the previous owner does not decode: its pointer is nil
    rintro e w' ⟨rfl, hnone⟩
    exact hrest none trivial hnone.symm

/-! ## Accepted transactions -/

theorem Objects.lookup_place {o : Objects} {addr : Address} {p : Option (Ref Account)}
    (hok : RefOk o addr p) :
    (o.place addr p).accountObjects.lookup addr = some (Ref.value (o.account addr) p) := by
  rcases p with _ | _ | a
  · exact Finmap.lookup_insert _
  · obtain ⟨a, ha⟩ := Option.ne_none_iff_exists'.mp (show o.account addr ≠ none from hok)
    change o.accountObjects.lookup addr = some (o.account addr)
    rw [ha, Objects.lookup_of_account ha]
  · exact Finmap.lookup_insert _

theorem Objects.lookup_place_of_ne (o : Objects) {addr addr' : Address} (p : Option (Ref Account))
    (h : addr' ≠ addr) :
    (o.place addr p).accountObjects.lookup addr' = o.accountObjects.lookup addr' := by
  rcases p with _ | _ | a
  · exact Finmap.lookup_insert_of_ne _ h
  · rfl
  · exact Finmap.lookup_insert_of_ne _ h

theorem Objects.place_frame (o : Objects) (addr : Address) (p : Option (Ref Account)) :
    ∃ m, o.place addr p = { o with accountObjects := m } := by
  rcases p with _ | _ | a
  · exact ⟨_, rfl⟩
  · exact ⟨_, rfl⟩
  · exact ⟨_, rfl⟩

/-- The maps of tokens after the objects of a transaction were put into the maps. -/
theorem appended_frame (C : Crypto) (n : ℕ) (tx : Transaction) (k : Work) (o : Objects) :
    ∃ m, appended C n tx k o = { o with
      tokenObjects := o.tokenObjects.insert tx.tokenID
        { k.sobj with token := { k.sobj.token with prevBlock := n + 1 } }
      tokenIsSet := o.tokenIsSet.insert tx.tokenID true
      thashList := o.thashList.insert tx.tokenID (tx.hash C)
      accountObjects := m } := by
  simp only [appended]
  split_ifs
  · obtain ⟨m, hm⟩ := Objects.place_frame _ tx.recipient k.recipientobj
    obtain ⟨m', hm'⟩ := Objects.place_frame _ tx.prevOwner k.senderobj
    exact ⟨m', by rw [hm', hm]⟩
  · exact Objects.place_frame _ _ _

/-- A transaction that is accepted changes the objects of its token and of accounts. -/
theorem sat_updatePlasma_frame {σ : Type} (S : Storage σ) {w : Env σ} (tx : Transaction) :
    Sat (updatePlasma C S n tx) w
      (fun _ w' => ∃ t m, w'.db.objects = { w.db.objects with
        tokenObjects := w.db.objects.tokenObjects.insert tx.tokenID t
        tokenIsSet := w.db.objects.tokenIsSet.insert tx.tokenID true
        thashList := w.db.objects.thashList.insert tx.tokenID (tx.hash C)
        accountObjects := m }) (fun _ _ => True) := by
  rw [sat_updatePlasma]
  refine (sat_readPlasma S).mono ?_ (fun _ _ _ => trivial)
  rintro k w₁ ⟨hdb, hk, ht, -, -⟩
  rw [← hdb] at hk
  refine (sat_changePlasma hk fun h => owner_of_transferError (ht h)).mono ?_ (fun _ _ h => h.elim)
  intro k' w₂ hc
  obtain ⟨m, hm⟩ := hc.frame
  apply sat_appendObjects
  · intro _ _
    obtain ⟨m', hm'⟩ := appended_frame C n tx k' w₂.db.objects
    refine ⟨{ k'.sobj with token := { k'.sobj.token with prevBlock := n + 1 } }, m', ?_⟩
    change appended C n tx k' w₂.db.objects = _
    rw [hm', hm, hdb]
  · exact fun _ _ => trivial

theorem currentAccount_of_lookup {o : Objects} {addr : Address} {p : Option Account}
    (h : o.accountObjects.lookup addr = some p) : currentAccount T o addr = p := by
  simp [currentAccount, h]

theorem currentAccount_congr {o o' : Objects} {addr : Address}
    (h : o'.accountObjects.lookup addr = o.accountObjects.lookup addr) :
    currentAccount T o' addr = currentAccount T o addr := by
  simp [currentAccount, h]

/-- The account objects after the objects of a transaction were put into the maps. -/
theorem lookup_appended (C : Crypto) (n : ℕ) {k : Work} {o : Objects}
    (hr : RefOk o tx.recipient k.recipientobj)
    (hs : k.senderdirtied = true → tx.prevOwner ≠ tx.recipient ∧ RefOk o tx.prevOwner k.senderobj)
    (addr : Address) :
    (appended C n tx k o).accountObjects.lookup addr =
      if addr = tx.recipient then some (Ref.value (o.account tx.recipient) k.recipientobj)
      else if addr = tx.prevOwner ∧ k.senderdirtied = true then
        some (Ref.value (o.account tx.prevOwner) k.senderobj)
      else o.accountObjects.lookup addr := by
  simp only [appended]
  -- the maps with the token put into them
  set o₁ : Objects := { o with
    tokenObjects := o.tokenObjects.insert tx.tokenID
      { k.sobj with token := { k.sobj.token with prevBlock := n + 1 } }
    tokenIsSet := o.tokenIsSet.insert tx.tokenID true
    thashList := o.thashList.insert tx.tokenID (tx.hash C) }
  have hr₁ : RefOk o₁ tx.recipient k.recipientobj := hr.congr rfl
  by_cases hsd : k.senderdirtied = true
  · obtain ⟨hne, hok⟩ := hs hsd
    have hok₂ : RefOk (o₁.place tx.recipient k.recipientobj) tx.prevOwner k.senderobj :=
      hok.congr (Objects.lookup_place_of_ne o₁ _ hne)
    have hacc : (o₁.place tx.recipient k.recipientobj).account tx.prevOwner =
        o.account tx.prevOwner := by
      rw [Objects.account, Objects.lookup_place_of_ne o₁ _ hne]
      rfl
    rw [if_pos hsd]
    by_cases h₁ : addr = tx.recipient
    · subst h₁
      rw [if_pos rfl, Objects.lookup_place_of_ne _ _ hne.symm, Objects.lookup_place hr₁]
      rfl
    · by_cases h₂ : addr = tx.prevOwner
      · subst h₂
        rw [if_neg h₁, if_pos ⟨rfl, hsd⟩, Objects.lookup_place hok₂, hacc]
      · rw [if_neg h₁, if_neg (fun h => h₂ h.1), Objects.lookup_place_of_ne _ _ h₂,
          Objects.lookup_place_of_ne _ _ h₁]
  · rw [if_neg hsd]
    by_cases h₁ : addr = tx.recipient
    · subst h₁
      rw [if_pos rfl, Objects.lookup_place hr₁]
      rfl
    · rw [if_neg h₁, if_neg (fun h => hsd h.2), Objects.lookup_place_of_ne _ _ h₁]

/-- The owner of a token that a transfer passes the checks for. -/
theorem Finds.owner {t : Token} (h : Finds T tx t) (h0 : tx.prevBlock ≠ 0) :
    t.owner = tx.prevOwner := by
  rw [Finds, if_neg h0] at h
  exact owner_of_transferError h.2

theorem senderAfter_eq_id {t : Token} (h : ¬ (tx.prevBlock ≠ 0 ∧ t.owner ≠ tx.recipient)) :
    senderAfter tx t = id := by
  funext a
  simp only [senderAfter, sent, id]
  split_ifs with h₁ h₂
  · rfl
  · exact absurd ⟨h₁, h₂⟩ h
  · rfl

theorem sat_updatePlasma_map :
    Sat (updatePlasma C (mapStorage T) n tx) w
      (fun _ w' => ∃ t, Accepted C n T tx t w.db.objects w'.db.objects) (fun _ _ => True) := by
  rw [sat_updatePlasma]
  refine sat_readPlasma_map.mono ?_ (fun _ _ h => h)
  rintro k w' ⟨rfl, hk, hdel, hf, hd, hsd, hrv, hsv⟩
  refine (sat_changePlasma hk hf.owner).mono ?_ (fun _ _ h => h.elim)
  intro k' w₂ hc
  obtain ⟨m, hm⟩ := hc.frame
  apply sat_appendObjects
  · intro hns hdirt
    rw [hm] at hns
    set t := k.sobj.token
    -- the sender's object is appended only where the token changes hands
    have hsd' : k'.senderdirtied = true ↔ tx.prevBlock ≠ 0 ∧ t.owner ≠ tx.recipient := by
      rw [hc.senderdirtied, hsd]
      simp
    have hne : k'.senderdirtied = true → tx.prevOwner ≠ tx.recipient := by
      intro h
      rw [← hf.owner (hsd'.mp h).1]
      exact (hsd'.mp h).2
    have hlook := lookup_appended C n (hc.recipientOk hk.recipient)
      (fun h => ⟨hne h, hc.senderOk (hne h) hk.sender⟩)
    obtain ⟨m', hm'⟩ := appended_frame C n tx k' w₂.db.objects
    have hobj : k'.sobj = ⟨tokenAfter tx t, false⟩ := by
      rw [hc.token]
      change (⟨tokenAfter tx t, k.sobj.deleted⟩ : TokenObject) = _
      rw [hdel]
    change ∃ t, Accepted C n T tx t w'.db.objects (appended C n tx k' w₂.db.objects)
    have htok : w₂.db.objects.tokenObjects = w'.db.objects.tokenObjects := by rw [hm]
    have hset : w₂.db.objects.tokenIsSet = w'.db.objects.tokenIsSet := by rw [hm]
    have hthash : w₂.db.objects.thashList = w'.db.objects.thashList := by rw [hm]
    refine ⟨t, hf, ?_, hns, ?_, ?_, ?_, ?_, ?_, ?_⟩
    · have := hc.dirtied.mp hdirt
      simpa [hd] using this
    · rw [hm', ← htok, hobj]
      rfl
    · rw [hm', ← hset]
    · rw [hm', ← hthash]
    · rw [← hrv, ← hc.recipient]
      exact currentAccount_of_lookup (by simpa using hlook tx.recipient)
    · intro hpr
      by_cases h : k'.senderdirtied = true
      · rw [← hsv, ← hc.sender hpr]
        exact currentAccount_of_lookup
          (by simpa [hpr, h] using hlook tx.prevOwner)
      · -- the previous owner's account was not touched
        rw [senderAfter_eq_id fun h' => h (hsd'.mpr h'), Option.map_id, id]
        refine currentAccount_congr ?_
        rw [← hc.others tx.prevOwner hpr fun _ h' => h (hsd'.mpr h')]
        simpa [hpr, h] using hlook tx.prevOwner
    · intro addr h₁ h₂
      rw [← hc.others addr h₁ fun h' => absurd h' h₂]
      simpa [h₁, h₂] using hlook addr
  · exact fun _ _ => trivial

/-! ## Transactions of either kind -/

/-- What an accepted transaction of either kind has done to the maps. -/
def TxEffect (C : Crypto) (n : ℕ) (T : Tries) : Tx → Objects → Objects → Prop
  | .plasma tx, o, o' => ∃ t, Accepted C n T tx t o o'
  | .anchor _, o, o' => SameLedger o o'

/-- A deposit is for the token that its fields give. The pool has no others. -/
def Tx.Good (C : Crypto) : Tx → Prop
  | .plasma tx => tx.prevBlock = 0 →
      tokenKey C tx.depositIndex tx.denomination tx.recipient = tx.tokenID
  | .anchor _ => True

/-- Where all chunks can be written, good transactions can be stored. -/
theorem sat_storeTx_map {tx : Tx} (hgood : tx.Good C) :
    Sat (storeTx C (mapStorage T) n tx) w (fun _ w' => w'.db = w.db) (fun _ _ => False) := by
  have hset : ∀ b v (w : Env Unit), (setChunk (mapStorage T) b v) w = .ok (.ok (), w) :=
    fun _ _ _ => rfl
  cases tx with
  | plasma tx =>
    unfold Sat
    rw [storeTx, storeTransaction, bind_ok (hset _ _ w), bind_ok (hset _ _ w)]
    by_cases h0 : tx.prevBlock = 0
    · rw [if_pos h0, bind_ok (hset _ _ w)]
      simp only [hgood h0, ne_eq, not_true_eq_false, if_false, hset]
    · rw [if_neg h0]
      exact rfl
  | anchor tx =>
    unfold Sat
    rw [storeTx, storeAnchorTransaction, bind_ok (hset _ _ w), bind_ok (hset _ _ w), hset]

theorem sat_updateObjects_map (tx : Tx) :
    Sat (updateObjects C (mapStorage T) n tx) w
      (fun _ w' => TxEffect C n T tx w.db.objects w'.db.objects) (fun _ _ => True) := by
  cases tx with
  | plasma tx => exact sat_updatePlasma_map
  | anchor tx =>
    exact (sat_updateAnchor_checks C _ tx).mono (fun _ _ h => h.2.2.2) (fun _ _ _ => trivial)

/-- `commitTransaction` on a state database opened at a block. -/
theorem sat_commit_map {tx : Tx} (hgood : tx.Good C) (hw : w.db.Ordered) :
    Sat (commitTransaction C (mapStorage T) n tx) w
      (fun _ w' => w'.db.Ordered ∧ TxEffect C n T tx w.db.objects w'.db.objects)
      (fun _ w' => w'.db.Ordered ∧ w'.db.objects = w.db.objects) := by
  -- since storing does not fail, a transaction fails only where the checks refuse it
  have hrefused : Sat (commitTransaction C (mapStorage T) n tx) w
      (fun _ w' => TxEffect C n T tx w.db.objects w'.db.objects)
      (fun _ _ => Refused C (mapStorage T) tx w) := by
    unfold Sat
    rw [commitTransaction, bind_ok (snapshot_eq w)]
    change Sat _ w.snap _ _
    rw [sat_orElse, applyTransaction_eq, sat_bind]
    refine ((sat_updateObjects C _ n tx).and (sat_updateObjects_map tx)).mono ?_ ?_
    · rintro _ w₁ ⟨-, heff⟩
      refine (sat_storeTx_map hgood).mono (fun _ w₂ hdb => ?_) (fun _ _ h => h.elim)
      rw [hdb]
      exact heff
    · rintro e w₁ ⟨⟨href, hsince⟩, -⟩
      refine (sat_revertFailed _ e hw hsince.sameRevisions).mono (fun _ _ h => h.elim) ?_
      exact fun _ _ _ => (refused_snap C _ tx).mp href
  refine ((sat_commitTransaction C _ n tx hw).and hrefused).mono (fun _ _ h => h) ?_
  rintro _ w' ⟨⟨hord, hiff⟩, href⟩
  exact ⟨hord, hiff.mpr href⟩

/-! ## The loop of the minter -/

/-- What every round keeps holds at the end, for what is left of the list then. -/
theorem commitTransactions_invariant {σ : Type} {S : Storage σ} {n : ℕ}
    {P : List Tx → Minting σ → Prop}
    (hok : ∀ tx txes m env, P (tx :: txes) m →
      commitTransaction C S n tx m.env = .ok (.ok (), env) →
      P txes ⟨m.committed ++ [tx], m.pool, env, m.attempts ++ [(tx, true)]⟩)
    (herr : ∀ tx txes m e env, P (tx :: txes) m →
      commitTransaction C S n tx m.env = .ok (.error e, env) →
      P (tx :: txes) ⟨m.committed, m.pool.dropFailed C tx, env, m.attempts ++ [(tx, false)]⟩)
    {i : ℕ} {txes : List Tx} {m m' : Minting σ} (hm : P txes m)
    (h : commitTransactions C S n i txes m = .ok m') : ∃ txes', P txes' m' := by
  -- `i` rounds are left; a failed transaction stays at the head of the list and uses one up
  induction i generalizing txes m with
  | zero => exact ⟨txes, Except.ok.inj h ▸ hm⟩
  | succ i ih =>
    rcases txes with _ | ⟨tx, txes⟩
    · exact ⟨[], Except.ok.inj h ▸ hm⟩
    · rw [commitTransactions] at h
      rcases hc : commitTransaction C S n tx m.env with p | ⟨e | _, env⟩
      · rw [hc] at h
        cases h
      · rw [hc] at h
        exact ih (herr tx txes m e env hm hc) h
      · rw [hc] at h
        exact ih (hok tx txes m env hm hc) h

/-- The loop rule: what accepted transactions keep, `commitTransactions` keeps; rejected ones change
nothing. `Eff` is what is known of an accepted transaction. -/
theorem commitTransactions_rule {Eff : Tx → Objects → Objects → Prop}
    (hcommit : ∀ tx (w : Env Unit), tx.Good C → w.db.Ordered →
      Sat (commitTransaction C (mapStorage T) n tx) w
        (fun _ w' => w'.db.Ordered ∧ Eff tx w.db.objects w'.db.objects)
        (fun _ w' => w'.db.Ordered ∧ w'.db.objects = w.db.objects))
    {I : List Tx → Objects → Prop} {A : Tx → Prop}
    (hstep : ∀ txs tx o o', A tx → I txs o → Eff tx o o' → I (txs ++ [tx]) o')
    {i : ℕ} {txes : List Tx} {m m' : Minting Unit}
    (h : commitTransactions C (mapStorage T) n i txes m = .ok m')
    (hA : ∀ tx ∈ txes, A tx ∧ tx.Good C) (hord : m.env.db.Ordered)
    (hI : I m.committed m.env.db.objects) : I m'.committed m'.env.db.objects := by
  refine (commitTransactions_invariant (P := fun txes m => (∀ tx ∈ txes, A tx ∧ tx.Good C) ∧
    m.env.db.Ordered ∧ I m.committed m.env.db.objects) ?_ ?_ ⟨hA, hord, hI⟩ h).choose_spec.2.2
  · rintro tx txes m env ⟨hA, hord, hI⟩ hc
    obtain ⟨hord', heff⟩ := (hcommit tx m.env (hA tx (by simp)).2 hord).ok hc
    exact ⟨fun t ht => hA t (by simp [ht]), hord', hstep _ tx _ _ (hA tx (by simp)).1 hI heff⟩
  · rintro tx txes m e env ⟨hA, hord, hI⟩ hc
    obtain ⟨hord', hsame⟩ := (hcommit tx m.env (hA tx (by simp)).2 hord).error hc
    exact ⟨hA, hord', hsame ▸ hI⟩

theorem Pool.removeTransaction_sub {p p' : Pool} {h : Hash}
    (hr : p.removeTransaction C h = .ok p') : ∀ tx ∈ p'.txpool, tx ∈ p.txpool := by
  intro tx htx
  unfold Pool.removeTransaction at hr
  split_ifs at hr
  · cases hr
    exact List.eraseP_sublist.mem htx
  · cases hr
    exact htx

theorem Pool.dropFailed_sub (p : Pool) (tx' : Tx) :
    ∀ tx ∈ (p.dropFailed C tx').txpool, tx ∈ p.txpool := by
  unfold Pool.dropFailed
  rcases hr : p.removeTransaction C (tx'.hash C) with e | p'
  · exact fun _ htx => htx
  · exact Pool.removeTransaction_sub hr

/-- Minting only takes transactions out of the pool. -/
theorem commitTransactions_pool {σ : Type} {S : Storage σ} {n i : ℕ} {txes : List Tx}
    {m m' : Minting σ} (h : commitTransactions C S n i txes m = .ok m') :
    ∀ tx ∈ m'.pool.txpool, tx ∈ m.pool.txpool :=
  (commitTransactions_invariant
    (P := fun _ m' => ∀ tx ∈ m'.pool.txpool, tx ∈ m.pool.txpool) (fun _ _ _ _ hm _ => hm)
    (fun tx _ m' _ _ hm _ t ht => hm t (m'.pool.dropFailed_sub tx t ht)) (fun _ htx => htx)
    h).choose_spec

theorem Pool.removeAll_sub (txes : List Tx) (p : Pool) :
    ∀ tx ∈ (p.removeAll C txes).1.txpool, tx ∈ p.txpool := by
  induction txes generalizing p with
  | nil => exact fun _ h => h
  | cons tx' txes ih =>
    intro tx htx
    rw [Pool.removeAll] at htx
    split at htx
    · exact htx
    · rename_i hr
      exact Pool.removeTransaction_sub hr tx (ih _ tx htx)

/-! ## The tokens of a block -/

/-- The token transactions of a list for one token. -/
def forToken (tokenID : UInt64) (txs : List Transaction) : List Transaction :=
  txs.filter fun tx => decide (tx.tokenID = tokenID)

/-- What the committed transactions have done to the token objects. -/
def TokensDone (C : Crypto) (n : ℕ) (T : Tries) (txs : List Tx) (o : Objects) : Prop :=
  ∀ tokenID,
    (forToken tokenID (plasmaTxs txs) = [] ∧ o.tokenObjects.lookup tokenID = none ∧
      o.tokenIsSet.lookup tokenID ≠ some true) ∨
    ∃ tx t, forToken tokenID (plasmaTxs txs) = [tx] ∧ Finds T tx t ∧
      (tx.prevBlock = 0 ∨ Dirties tx t) ∧
      o.tokenObjects.lookup tokenID = some ⟨tokenRecord n tx t, false⟩ ∧
      o.tokenIsSet.lookup tokenID = some true ∧
      o.thashList.lookup tokenID = some (tx.hash C)

theorem plasmaTxs_concat_plasma (txs : List Tx) (tx : Transaction) :
    plasmaTxs (txs ++ [.plasma tx]) = plasmaTxs txs ++ [tx] := by
  simp [plasmaTxs]

theorem plasmaTxs_concat_anchor (txs : List Tx) (tx : AnchorTransaction) :
    plasmaTxs (txs ++ [.anchor tx]) = plasmaTxs txs := by
  simp [plasmaTxs]

theorem forToken_concat (tokenID : UInt64) (txs : List Transaction) (tx : Transaction) :
    forToken tokenID (txs ++ [tx]) =
      if tx.tokenID = tokenID then forToken tokenID txs ++ [tx] else forToken tokenID txs := by
  by_cases h : tx.tokenID = tokenID
  · simp [forToken, h]
  · simp [forToken, h]

/-- One more accepted transaction. -/
theorem TokensDone.step {txs : List Tx} {tx : Tx} {o o' : Objects} (h : TokensDone C n T txs o)
    (heff : TxEffect C n T tx o o') : TokensDone C n T (txs ++ [tx]) o' := by
  intro tokenID
  cases tx with
  | plasma tx =>
    obtain ⟨t, ha⟩ := heff
    rw [plasmaTxs_concat_plasma, forToken_concat, ha.tokenObjects, ha.tokenIsSet, ha.thashList]
    by_cases hid : tx.tokenID = tokenID
    · -- the first transaction for its token in this block
      subst hid
      rcases h tx.tokenID with ⟨hnil, -, -⟩ | ⟨_, _, -, -, -, -, hset, -⟩
      · refine .inr ⟨tx, t, ?_, ha.finds, ha.dirties, Finmap.lookup_insert _,
          Finmap.lookup_insert _, Finmap.lookup_insert _⟩
        rw [if_pos rfl, hnil]
        rfl
      · exact absurd hset ha.notSet
    · have hne : tokenID ≠ tx.tokenID := fun h => hid h.symm
      rw [if_neg hid, Finmap.lookup_insert_of_ne _ hne, Finmap.lookup_insert_of_ne _ hne,
        Finmap.lookup_insert_of_ne _ hne]
      exact h tokenID
  | anchor tx =>
    have hs : SameLedger o o' := heff
    rw [plasmaTxs_concat_anchor, hs.tokenObjects, hs.tokenIsSet, hs.thashList]
    exact h tokenID

/-! ## The tries of a block -/

/-- The record of a token after `Commit`. -/
def committedToken (o : Objects) (T : Tries) (tokenID : UInt64) : Option Token :=
  match o.tokenObjects.lookup tokenID with
  | none => T.tokens.lookup tokenID
  | some s => if s.deleted then none else some s.token

/-- The entry of a token in the trie of transactions after `Commit`. -/
def committedHash (o : Objects) (T : Tries) (tokenID : UInt64) : Option Hash :=
  match o.tokenObjects.lookup tokenID with
  | none => T.transactions.lookup tokenID
  | some _ => some ((o.thashList.lookup tokenID).getD zeroHash)

theorem updateTokenObject_lookup (o : Objects) (T : Tries) (k tokenID : UInt64) :
    (updateTokenObject o k T).tokens.lookup tokenID =
        (if tokenID = k then committedToken o T k else T.tokens.lookup tokenID) ∧
      (updateTokenObject o k T).transactions.lookup tokenID =
        (if tokenID = k then committedHash o T k else T.transactions.lookup tokenID) := by
  unfold updateTokenObject committedToken committedHash
  by_cases h : tokenID = k
  · subst h
    rcases o.tokenObjects.lookup tokenID with _ | ⟨t, _ | _⟩
    · simp
    · simp [Finmap.lookup_insert]
    · simp [Finmap.lookup_insert, Finmap.lookup_erase]
  · rcases o.tokenObjects.lookup k with _ | ⟨t, _ | _⟩
    · simp [h]
    · simp [h, Finmap.lookup_insert_of_ne]
    · simp [h, Finmap.lookup_insert_of_ne, Finmap.lookup_erase_ne]

/-- The loop over the token objects. -/
theorem updateTokenObjects_lookup (o : Objects) (l : List UInt64) (T : Tries) (tokenID : UInt64) :
    (l.foldl (fun T k => updateTokenObject o k T) T).tokens.lookup tokenID =
        (if tokenID ∈ l then committedToken o T tokenID else T.tokens.lookup tokenID) ∧
      (l.foldl (fun T k => updateTokenObject o k T) T).transactions.lookup tokenID =
        (if tokenID ∈ l then committedHash o T tokenID else T.transactions.lookup tokenID) := by
  induction l generalizing T with
  | nil => simp
  | cons k l ih =>
    obtain ⟨h₁, h₂⟩ := ih (updateTokenObject o k T)
    obtain ⟨u₁, u₂⟩ := updateTokenObject_lookup o T k tokenID
    rw [List.foldl_cons, h₁, h₂]
    -- a second visit of the same key writes the same
    have hc : tokenID = k → committedToken o (updateTokenObject o k T) tokenID =
        committedToken o T tokenID := by
      rintro rfl
      rw [if_pos rfl] at u₁
      rcases ho : o.tokenObjects.lookup tokenID with _ | s
      · simp only [committedToken, ho] at u₁ ⊢
        exact u₁
      · simp only [committedToken, ho]
    have hc' : tokenID = k → committedHash o (updateTokenObject o k T) tokenID =
        committedHash o T tokenID := by
      rintro rfl
      rw [if_pos rfl] at u₂
      rcases ho : o.tokenObjects.lookup tokenID with _ | s
      · simp only [committedHash, ho] at u₂ ⊢
        exact u₂
      · simp only [committedHash, ho]
    by_cases hk : tokenID = k
    · subst hk
      simp only [if_true] at u₁ u₂
      simp only [hc rfl, hc' rfl, u₁, u₂, List.mem_cons, true_or, if_true, ite_self, and_self]
    · simp only [if_neg hk] at u₁ u₂
      have e₁ : committedToken o (updateTokenObject o k T) tokenID =
        committedToken o T tokenID := by
        simp only [committedToken, u₁]
      have e₂ : committedHash o (updateTokenObject o k T) tokenID = committedHash o T tokenID := by
        simp only [committedHash, u₂]
      simp only [e₁, e₂, u₁, u₂, List.mem_cons, hk, false_or, and_self]

/-- One round of the loop over the account objects. A nil object makes it panic. -/
theorem updateAccountObjects_cons {o : Objects} {addr : Address} {l : List Address} {T T' : Tries}
    (h : updateAccountObjects o (addr :: l) T = .ok T') :
    (o.accountObjects.lookup addr = none ∧ updateAccountObjects o l T = .ok T') ∨
      ∃ a, o.accountObjects.lookup addr = some (some a) ∧
        updateAccountObjects o l
          { T with accounts := T.accounts.insert (shortAddr addr) (storedAccount a) } = .ok T' := by
  rcases hl : o.accountObjects.lookup addr with _ | _ | a
  · simp only [updateAccountObjects, updateAccountObject, hl] at h
    exact .inl ⟨rfl, h⟩
  · simp only [updateAccountObjects, updateAccountObject, hl] at h
    cases h
  · simp only [updateAccountObjects, updateAccountObject, hl] at h
    exact .inr ⟨a, rfl, h⟩

/-- The loop over the account objects leaves the other tries alone. -/
theorem updateAccountObjects_frame (o : Objects) (l : List Address) {T T' : Tries}
    (h : updateAccountObjects o l T = .ok T') :
    T'.tokens = T.tokens ∧ T'.transactions = T.transactions ∧ T'.chains = T.chains := by
  induction l generalizing T with
  | nil =>
    cases h
    exact ⟨rfl, rfl, rfl⟩
  | cons addr l ih =>
    rcases updateAccountObjects_cons h with ⟨-, h⟩ | ⟨a, -, h⟩
    · exact ih h
    · obtain ⟨h₁, h₂, h₃⟩ := ih h
      exact ⟨h₁, h₂, h₃⟩

/-- The loop over the token objects leaves the accounts and the chains alone. -/
theorem updateTokenObjects_frame (o : Objects) (l : List UInt64) (T : Tries) :
    (l.foldl (fun T k => updateTokenObject o k T) T).accounts = T.accounts ∧
      (l.foldl (fun T k => updateTokenObject o k T) T).chains = T.chains := by
  induction l generalizing T with
  | nil => exact ⟨rfl, rfl⟩
  | cons k l ih =>
    rw [List.foldl_cons, (ih _).1, (ih _).2, updateTokenObject]
    split
    · exact ⟨rfl, rfl⟩
    · exact ⟨rfl, rfl⟩

/-- The loop over the chain objects leaves the other tries alone. -/
theorem updateChainObjects_frame (o : Objects) (l : List UInt64) (T : Tries) :
    (l.foldl (fun T k => updateChainObject o k T) T).tokens = T.tokens ∧
      (l.foldl (fun T k => updateChainObject o k T) T).transactions = T.transactions ∧
      (l.foldl (fun T k => updateChainObject o k T) T).accounts = T.accounts := by
  induction l generalizing T with
  | nil => exact ⟨rfl, rfl, rfl⟩
  | cons k l ih =>
    have hk : (updateChainObject o k T).tokens = T.tokens ∧
        (updateChainObject o k T).transactions = T.transactions ∧
        (updateChainObject o k T).accounts = T.accounts := by
      unfold updateChainObject
      split
      · exact ⟨rfl, rfl, rfl⟩
      · exact ⟨rfl, rfl, rfl⟩
    obtain ⟨h₁, h₂, h₃⟩ := ih (updateChainObject o k T)
    exact ⟨h₁.trans hk.1, h₂.trans hk.2.1, h₃.trans hk.2.2⟩

theorem Visits.mem {κ α : Type} [DecidableEq κ] {l : List κ} {m : GoMap κ α} (h : Visits l m)
    (k : κ) : k ∈ l ↔ m.lookup k ≠ none := by
  rw [← List.mem_toFinset, h.2, Finmap.mem_keys, ne_eq, Finmap.lookup_eq_none, not_not]

/-- `Commit` in its three parts. -/
theorem commit_cases {order : MapOrder} {o : Objects} {T' : Tries}
    (h : commit order o T = .ok T') : ∃ T₁,
      updateAccountObjects o order.accounts
        (order.tokens.foldl (fun T k => updateTokenObject o k T) T) = .ok T₁ ∧
      T' = order.chains.foldl (fun T k => updateChainObject o k T) T₁ := by
  unfold commit at h
  dsimp only at h
  rcases hu : updateAccountObjects o order.accounts
    (order.tokens.foldl (fun T k => updateTokenObject o k T) T) with p | T₁
  · rw [hu] at h
    cases h
  · rw [hu] at h
    cases h
    exact ⟨T₁, rfl, rfl⟩

/-- The tokens and transactions of the new tries. -/
theorem commit_lookup {order : MapOrder} {o : Objects} {T' : Tries}
    (h : commit order o T = .ok T') (hv : order.Valid o) (tokenID : UInt64) :
    T'.tokens.lookup tokenID = committedToken o T tokenID ∧
      T'.transactions.lookup tokenID = committedHash o T tokenID := by
  obtain ⟨T₁, hacc, rfl⟩ := commit_cases h
  obtain ⟨c₁, c₂, -⟩ := updateChainObjects_frame o order.chains T₁
  obtain ⟨a₁, a₂, -⟩ := updateAccountObjects_frame o order.accounts hacc
  obtain ⟨t₁, t₂⟩ := updateTokenObjects_lookup o order.tokens T tokenID
  rw [c₁, c₂, a₁, a₂, t₁, t₂]
  by_cases hm : tokenID ∈ order.tokens
  · simp [hm]
  · have hn : o.tokenObjects.lookup tokenID = none := by
      by_contra hne
      exact hm ((hv.1.mem tokenID).mpr hne)
    simp [hm, committedToken, committedHash, hn]

/-! ## Minting -/

variable {s s' : Node} {c : MintChoice}

/-- No block was made. -/
structure Unminted (s s' : Node) : Prop where
  currentBlock : s'.currentBlock = s.currentBlock
  blockNumber : s'.blockNumber = s.blockNumber
  chain : s'.chain = s.chain
  pool : ∀ tx ∈ s'.pool.txpool, tx ∈ s.pool.txpool

/-- What the minter has at hand when it has made a block. -/
structure Mints (C : Crypto) (c : MintChoice) (s s' : Node) (m : Minting Unit) (T' : Tries) :
    Prop where
  sorts : s.pool.SortsTo c
  committed : commitTransactions C (mapStorage (stateAt s.currentBlock)) s.blockNumber
    c.transactions.length c.transactions ⟨[], ⟨c.txs, c.anchors⟩, ⟨newStateDB, ()⟩, []⟩ = .ok m
  valid : c.order.Valid m.env.db.objects
  tries : commit c.order m.env.db.objects (stateAt s.currentBlock) = .ok T'
  block : s'.currentBlock =
    ⟨s.currentBlock.number + 1, plasmaTxs m.committed, anchorTxs m.committed, T'⟩
  blockNumber : s'.blockNumber = s.currentBlock.number + 1
  chain : s'.chain = s.chain ++ [s'.currentBlock]
  pool : s'.pool = (m.pool.removeAll C m.committed).1

theorem mint_cases (h : mintNewBlock C c s = .ok s') :
    Unminted s s' ∨ ∃ m T', Mints C c s s' m T' := by
  unfold mintNewBlock at h
  split_ifs at h with hsort
  · dsimp only at h
    rcases hm : commitTransactions C (mapStorage (stateAt s.currentBlock)) s.blockNumber
      c.transactions.length c.transactions ⟨[], ⟨c.txs, c.anchors⟩, ⟨newStateDB, ()⟩, []⟩ with p | m
    · rw [hm] at h
      cases h
    · rw [hm] at h
      change (if m.committed = [] then _ else _) = _ at h
      -- nothing was committed, a block was, or the choice has the wrong order of the maps
      split_ifs at h with hnil hv
      · cases h
        refine .inl ⟨rfl, rfl, rfl, fun tx htx => ?_⟩
        exact hsort.1.1.mem_iff.mp (commitTransactions_pool hm tx htx)
      · rcases hT : commit c.order m.env.db.objects (stateAt s.currentBlock) with p | T'
        · rw [hT] at h
          cases h
        · rw [hT] at h
          cases h
          exact .inr ⟨m, T', hsort, hm, hv, hT, rfl, rfl, rfl, rfl⟩
      · cases h
        exact .inl ⟨rfl, rfl, rfl, fun _ h => h⟩
  · cases h
    exact .inl ⟨rfl, rfl, rfl, fun _ h => h⟩

/-! ## What is in the pool -/

/-- The checks that a transaction has passed before it is in the pool. -/
structure Pooled (C : Crypto) (tx : Transaction) : Prop where
  deposit : tx.prevBlock = 0 → tokenKey C tx.depositIndex tx.denomination tx.recipient = tx.tokenID
  signer : tx.prevBlock ≠ 0 → tx.getSigner C = .ok tx.prevOwner

/-- A signer is the address of a key that was recovered. -/
theorem recoverSigner_eq_ok {hash sig : Bytes} {a : Address}
    (h : recoverSigner C hash sig = .ok a) :
    ∃ pub, C.ecrecover (signHash C hash) sig = .ok (4 :: pub) ∧ a = addressOfPub C pub := by
  unfold recoverSigner at h
  rcases hr : C.ecrecover (signHash C hash) sig with e | pub
  · rw [hr] at h
    cases h
  · rw [hr] at h
    rcases pub with _ | ⟨b, pub⟩
    · cases h
    · change (if b ≠ 4 then _ else _) = _ at h
      split_ifs at h with hb
      rw [not_not.mp hb]
      exact ⟨pub, rfl, (Except.ok.inj h).symm⟩

theorem validateSig_ok (h : tx.validateSig C = .ok ()) : tx.getSigner C = .ok tx.prevOwner ∧
    (tx.prevBlock = 0 →
      tokenKey C tx.depositIndex tx.denomination tx.recipient = tx.tokenID) := by
  unfold Transaction.validateSig at h
  rcases hs : tx.getSigner C with e | signer
  · rw [hs] at h
    cases h
  · rw [hs] at h
    change (if signer ≠ tx.prevOwner then _ else _) = _ at h
    split_ifs at h with h₁ h₂
    refine ⟨by rw [not_not.mp h₁], fun h0 => ?_⟩
    by_contra hne
    exact h₂ ⟨h0, hne⟩

theorem pooled_of_validateTx (h : validateTx C tx = .ok ()) : Pooled C tx := by
  unfold validateTx at h
  rcases hv : tx.validateSig C with e | _
  · rw [hv] at h
    cases h
  · obtain ⟨hs, hk⟩ := validateSig_ok hv
    exact ⟨hk, fun _ => hs⟩

/-- The operator adds a signature and changes nothing else. -/
theorem eq_of_signByOperator {tx' : Transaction} (h : tx.signByOperator C = .ok tx') :
    ∃ sig, tx' = { tx with sig := sig } := by
  unfold Transaction.signByOperator at h
  rcases hs : C.operatorSign (signHash C (tx.shortHash C).1) with e | sig
  · rw [hs] at h
    cases h
  · rw [hs] at h
    exact ⟨_, (Except.ok.inj h).symm⟩

theorem pooled_deposit {t : TokenInfo}
    (h : (depositTransaction C t).signByOperator C = .ok tx) : Pooled C tx := by
  obtain ⟨sig, rfl⟩ := eq_of_signByOperator h
  exact ⟨fun _ => rfl, fun h => absurd rfl h⟩

theorem Pool.mem_addTransaction {p : Pool} {tx' : Transaction}
    (h : tx' ∈ (p.addTransaction C tx).txpool) : tx' ∈ p.txpool ∨ tx' = tx := by
  unfold Pool.addTransaction at h
  split_ifs at h
  · exact .inl h
  · simpa using h

/-- A call that is not a mint changes the pool only, by checked transactions. -/
theorem step_pool {op : Op} (h : step C s op = .ok s') (hop : ∀ c, op ≠ .mint c) :
    s'.currentBlock = s.currentBlock ∧ s'.blockNumber = s.blockNumber ∧ s'.chain = s.chain ∧
      ∀ tx ∈ s'.pool.txpool, tx ∈ s.pool.txpool ∨ Pooled C tx := by
  -- a submission adds what it has checked, and nothing else
  cases op with
  | deposit t =>
    cases h
    unfold processDeposit
    split
    · exact ⟨rfl, rfl, rfl, fun _ h => .inl h⟩
    · rename_i tx hs
      refine ⟨rfl, rfl, rfl, fun tx' htx => ?_⟩
      rcases Pool.mem_addTransaction htx with h | rfl
      · exact .inl h
      · exact .inr (pooled_deposit hs)
  | send tx =>
    cases h
    unfold sendPlasmaTransaction
    split
    · exact ⟨rfl, rfl, rfl, fun _ h => .inl h⟩
    · rename_i hv
      refine ⟨rfl, rfl, rfl, fun tx' htx => ?_⟩
      rcases Pool.mem_addTransaction htx with h | rfl
      · exact .inl h
      · exact .inr (pooled_of_validateTx hv)
  | sendAnchor tx a r =>
    cases h
    unfold sendAnchorTransaction
    split_ifs
    · split
      · exact ⟨rfl, rfl, rfl, fun _ h => .inl h⟩
      · refine ⟨rfl, rfl, rfl, fun tx' htx => .inl ?_⟩
        unfold Pool.addAnchorTransaction at htx
        split_ifs at htx
        · exact htx
        · exact htx
    · exact ⟨rfl, rfl, rfl, fun _ h => .inl h⟩
  | mint c => exact absurd rfl (hop c)

/-- One call makes no block, or it is a mint that makes one. -/
theorem step_block {op : Op} (h : step C s op = .ok s') :
    (s'.currentBlock = s.currentBlock ∧ s'.blockNumber = s.blockNumber ∧ s'.chain = s.chain) ∨
      ∃ c m T', op = .mint c ∧ Mints C c s s' m T' := by
  by_cases hop : ∃ c, op = .mint c
  · obtain ⟨c, rfl⟩ := hop
    rcases mint_cases h with hu | ⟨m, T', hm⟩
    · exact .inl ⟨hu.currentBlock, hu.blockNumber, hu.chain⟩
    · exact .inr ⟨c, m, T', rfl, hm⟩
  · obtain ⟨h₁, h₂, h₃, -⟩ := step_pool h fun c hc => hop ⟨c, hc⟩
    exact .inl ⟨h₁, h₂, h₃⟩

/-- All transactions in the pool were checked. -/
def Node.PoolChecked (C : Crypto) (s : Node) : Prop := ∀ tx ∈ s.pool.txpool, Pooled C tx

/-- What a block does to the records of the tokens. -/
structure Minted (C : Crypto) (s s' : Node) : Prop where
  number : s'.currentBlock.number = s.currentBlock.number + 1
  blockNumber : s'.blockNumber = s'.currentBlock.number
  chain : s'.chain = s.chain ++ [s'.currentBlock]
  pool : ∀ tx ∈ s'.pool.txpool, tx ∈ s.pool.txpool
  body : ∀ tx ∈ s'.currentBlock.transactions, tx ∈ s.pool.txpool
  tokens : ∀ tokenID,
    (forToken tokenID s'.currentBlock.transactions = [] ∧
      s'.currentBlock.tries.tokens.lookup tokenID =
        s.currentBlock.tries.tokens.lookup tokenID) ∨
    ∃ tx t, forToken tokenID s'.currentBlock.transactions = [tx] ∧
      Finds s.currentBlock.tries tx t ∧ (tx.prevBlock = 0 ∨ Dirties tx t) ∧
      s'.currentBlock.tries.tokens.lookup tokenID = some (tokenRecord s.blockNumber tx t) ∧
      s'.currentBlock.tries.transactions.lookup tokenID = some (tx.hash C)

theorem mem_plasmaTxs {txs : List Tx} : tx ∈ plasmaTxs txs ↔ Tx.plasma tx ∈ txs := by
  unfold plasmaTxs
  rw [List.mem_filterMap]
  constructor
  · rintro ⟨a, ha, h⟩
    cases a with
    | plasma tx' =>
      cases h
      exact ha
    | anchor tx' => cases h
  · exact fun h => ⟨_, h, rfl⟩

/-- The transactions that the minter gets are those of the pool. -/
theorem Mints.mem_pool {m : Minting Unit} {T' : Tries} (h : Mints C c s s' m T') {tx : Transaction}
    (htx : Tx.plasma tx ∈ c.transactions) : tx ∈ s.pool.txpool := by
  unfold MintChoice.transactions Pool.transactions at htx
  simp only [List.mem_append, List.mem_map, Tx.plasma.injEq, exists_eq_right, reduceCtorEq,
    and_false, exists_false, or_false] at htx
  exact h.sorts.1.1.mem_iff.mp htx

theorem Mints.good {m : Minting Unit} {T' : Tries} (h : Mints C c s s' m T') (hp : s.PoolChecked C)
    {tx : Tx} (htx : tx ∈ c.transactions) : tx.Good C := by
  cases tx with
  | plasma tx => exact (hp tx (h.mem_pool htx)).deposit
  | anchor tx => trivial

theorem tokensDone_new {n : ℕ} : TokensDone C n T [] newStateDB.objects :=
  fun _ => .inl ⟨rfl, rfl, fun h => by cases h⟩

theorem newStateDB_ordered : newStateDB.Ordered := fun r hr => by cases hr

/-- The loop rule for a block. -/
theorem Mints.rule {m : Minting Unit} {T' : Tries} (h : Mints C c s s' m T') (hp : s.PoolChecked C)
    {Eff : Tx → Objects → Objects → Prop}
    (hcommit : ∀ tx (w : Env Unit), tx.Good C → w.db.Ordered →
      Sat (commitTransaction C (mapStorage (stateAt s.currentBlock)) s.blockNumber tx) w
        (fun _ w' => w'.db.Ordered ∧ Eff tx w.db.objects w'.db.objects)
        (fun _ w' => w'.db.Ordered ∧ w'.db.objects = w.db.objects))
    {I : List Tx → Objects → Prop}
    (hstep : ∀ txs tx o o', tx ∈ c.transactions → I txs o → Eff tx o o' → I (txs ++ [tx]) o')
    (h₀ : I [] newStateDB.objects) : I m.committed m.env.db.objects :=
  commitTransactions_rule hcommit hstep h.committed (fun _ htx => ⟨htx, h.good hp htx⟩)
    newStateDB_ordered h₀

/-- The loop rule for a block, with what an accepted transaction does to tokens and accounts. -/
theorem Mints.keeps {m : Minting Unit} {T' : Tries} (h : Mints C c s s' m T') (hp : s.PoolChecked C)
    {I : List Tx → Objects → Prop}
    (hstep : ∀ txs tx o o', tx ∈ c.transactions → I txs o →
      TxEffect C s.blockNumber (stateAt s.currentBlock) tx o o' → I (txs ++ [tx]) o')
    (h₀ : I [] newStateDB.objects) : I m.committed m.env.db.objects :=
  h.rule hp (fun _ _ hgood hw => sat_commit_map hgood hw) hstep h₀

theorem Mints.tokensDone {m : Minting Unit} {T' : Tries} (h : Mints C c s s' m T')
    (hp : s.PoolChecked C) :
    TokensDone C s.blockNumber (stateAt s.currentBlock) m.committed m.env.db.objects :=
  h.keeps hp (fun _ _ _ _ _ hI heff => hI.step heff) tokensDone_new

theorem Mints.minted {m : Minting Unit} {T' : Tries} (h : Mints C c s s' m T')
    (hp : s.PoolChecked C) : Minted C s s' := by
  have hdone := h.tokensDone hp
  have hmem : ∀ tx ∈ m.committed, tx ∈ c.transactions := by
    refine h.keeps hp (I := fun txs _ => ∀ tx ∈ txs, tx ∈ c.transactions) ?_ (by simp)
    intro txs tx _ _ htx hI _ tx' h'
    rcases List.mem_append.mp h' with h' | h'
    · exact hI tx' h'
    · rw [List.mem_singleton.mp h']
      exact htx
  refine ⟨by rw [h.block], by rw [h.blockNumber, h.block], h.chain, ?_, ?_, ?_⟩
  · intro tx htx
    rw [h.pool] at htx
    have h' := commitTransactions_pool h.committed tx (Pool.removeAll_sub _ _ tx htx)
    exact h.sorts.1.1.mem_iff.mp h'
  · intro tx htx
    rw [h.block] at htx
    exact h.mem_pool (hmem _ (mem_plasmaTxs.mp htx))
  · intro tokenID
    obtain ⟨ht, hx⟩ := commit_lookup h.tries h.valid tokenID
    rw [h.block]
    -- a token is in the block once or not at all
    rcases hdone tokenID with ⟨hnil, hnone, -⟩ | ⟨tx, t, hone, hf, hd, hobj, -, hhash⟩
    · refine .inl ⟨hnil, ?_⟩
      rw [ht, committedToken, hnone]
      rfl
    · refine .inr ⟨tx, t, hone, hf, hd, ?_, ?_⟩
      · rw [ht, committedToken, hobj]
        rfl
      · rw [hx, committedHash, hobj, hhash]
        rfl

/-- One call of a node whose pool was checked: no new block, or one that was minted. -/
theorem step_cases {op : Op} (h : step C s op = .ok s') (hp : s.PoolChecked C) :
    s'.PoolChecked C ∧
      ((s'.currentBlock = s.currentBlock ∧ s'.blockNumber = s.blockNumber ∧ s'.chain = s.chain) ∨
        Minted C s s') := by
  by_cases hop : ∃ c, op = .mint c
  · obtain ⟨c, rfl⟩ := hop
    rcases mint_cases h with hu | ⟨m, T', hm⟩
    · exact ⟨fun tx htx => hp tx (hu.pool tx htx),
        .inl ⟨hu.currentBlock, hu.blockNumber, hu.chain⟩⟩
    · have hmint := hm.minted hp
      exact ⟨fun tx htx => hp tx (hmint.pool tx htx), .inr hmint⟩
  · obtain ⟨h₁, h₂, h₃, hpool⟩ := step_pool h fun c hc => hop ⟨c, hc⟩
    refine ⟨fun tx htx => ?_, .inl ⟨h₁, h₂, h₃⟩⟩
    rcases hpool tx htx with h | h
    · exact hp tx h
    · exact h

theorem RunWith.poolChecked {P : Node → Op → Prop} (h : RunWith C P s) : s.PoolChecked C := by
  induction h with
  | new => exact fun tx htx => by cases htx
  | step op _ _ hs ih => exact (step_cases hs ih).1

/-- All transactions in the chain were checked. -/
theorem RunWith.chainChecked {P : Node → Op → Prop} (h : RunWith C P s) {b : Block}
    (hb : b ∈ s.chain) {tx : Transaction} (htx : tx ∈ b.transactions) : Pooled C tx := by
  induction h with
  | new =>
    rw [List.mem_singleton.mp hb] at htx
    cases htx
  | @step s s' op hrun _ hs ih =>
    rcases (step_cases hs hrun.poolChecked).2 with ⟨-, -, hc⟩ | hm
    · rw [hc] at hb
      exact ih hb
    · rw [hm.chain, List.mem_append, List.mem_singleton] at hb
      rcases hb with hb | rfl
      · exact ih hb
      · exact hrun.poolChecked tx (hm.body tx htx)

end GoPlasma.Plasma
