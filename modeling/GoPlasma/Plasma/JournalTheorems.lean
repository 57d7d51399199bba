import GoPlasma.Plasma.Apply

/-!
# What the journal undoes

`JournalEntry.undo` is the effect of reverting one entry on the maps: an entry for a token changes
no map, since it is undone on a copy, and an entry for an account or a chain restores the object if
one is in the map. `RevertToSnapshot`, if it returns, has undone all entries after the snapshot.

`Since w₀ w` says that undoing what was added to the journal between `w₀` and `w` gives the maps of
`w₀` back. The setters keep it.
-/

namespace GoPlasma.Plasma

open Act

variable {σ : Type} {w w₀ : Env σ} {α : Type} {Q : α → Env σ → Prop} {R : String → Env σ → Prop}

/-! ## Rules for the basic calls -/

@[simp] theorem sat_onStore (op : σ → Go (α × σ)) :
    Sat (onStore op) w Q R ↔ ∀ a st, op w.store = .ok (a, st) → Q a { w with store := st } := by
  unfold Sat onStore
  rcases op w.store with p | ⟨a, st⟩
  · simp
  · constructor
    · rintro h a' st' ⟨⟩
      exact h
    · intro h
      exact h a st rfl

/-- The state after a change with a journal entry. -/
def Env.log (e : JournalEntry) (f : Objects → Objects) (w : Env σ) : Env σ :=
  { w with db := { w.db with journal := w.db.journal ++ [e], objects := f w.db.objects } }

/-- The object behind a pointer, where `h` is the one in the map. -/
def Ref.value (h : Option α) : Option (Ref α) → Option α
  | none => none
  | some (.fresh a) => some a
  | some .held => h

/-- The pointer after an assignment. -/
def Ref.assign (a : α) : Option (Ref α) → Option (Ref α)
  | some .held => some .held
  | _ => some (.fresh a)

@[simp] theorem sat_getObjects {Q : Objects → Env σ → Prop} :
    Sat (getObjects : M σ Objects) w Q R ↔ Q w.db.objects w := Iff.rfl

@[simp] theorem sat_modifyObjects {Q : Unit → Env σ → Prop} (f : Objects → Objects) :
    Sat (modifyObjects f : M σ Unit) w Q R ↔
      Q () { w with db := { w.db with objects := f w.db.objects } } := Iff.rfl

@[simp] theorem sat_addEntry {Q : Unit → Env σ → Prop} (e : JournalEntry) :
    Sat (addEntry e : M σ Unit) w Q R ↔ Q () (w.log e id) := Iff.rfl

@[simp] theorem sat_deref (held : Objects → Option α) (p : Option (Ref α)) :
    Sat (deref held p : M σ α) w Q R ↔ ∀ a, Ref.value (held w.db.objects) p = some a → Q a w := by
  rcases p with _ | _ | a
  · simp [deref, Ref.value]
  · simp only [deref, Ref.value, sat_bind, sat_getObjects]
    rcases held w.db.objects with _ | a
    · simp
    · simp
  · simp [deref, Ref.value]

@[simp] theorem sat_setOwner {Q : TokenObject → Env σ → Prop} (tokenID : UInt64) (s : TokenObject)
    (owner : Address) :
    Sat (setOwner tokenID s owner) w Q R ↔
      Q { s with token := { s.token with owner := owner } }
        (w.log (.ownerChange tokenID s.token.owner) id) := Iff.rfl

@[simp] theorem sat_setPrevBlock {Q : TokenObject → Env σ → Prop} (tokenID : UInt64)
    (s : TokenObject) (n : ℕ) :
    Sat (setPrevBlock tokenID s n) w Q R ↔
      Q { s with token := { s.token with prevBlock := n } }
        (w.log (.prevBlockChange tokenID s.token.prevBlock) id) := Iff.rfl

@[simp] theorem sat_setBalance {Q : TokenObject → Env σ → Prop} (tokenID : UInt64)
    (s : TokenObject) (b a : UInt64) :
    Sat (setBalance tokenID s b a) w Q R ↔
      Q { s with token := { s.token with balance := b, allowance := a } }
        (w.log (.balanceChange tokenID s.token.balance s.token.allowance) id) := Iff.rfl

@[simp] theorem sat_setWithdrawal {Q : TokenObject → Env σ → Prop} (tokenID : UInt64)
    (s : TokenObject) (a b : UInt64) :
    Sat (setWithdrawal tokenID s a b) w Q R ↔
      Q { s with token := { s.token with allowance := a, spent := b } }
        (w.log (.withdrawChange tokenID s.token.allowance s.token.spent) id) := Iff.rfl

/-- The maps after an assignment to an account object. -/
def Objects.assignAccount (addr : Address) (p : Option (Ref Account)) (a : Account) (o : Objects) :
    Objects :=
  match p with
  | some .held => { o with accountObjects := o.accountObjects.insert addr (some a) }
  | _ => o

/-- The maps after an assignment to a chain object. -/
def Objects.assignChain (chainID : UInt64) (p : Option (Ref AnchorBlock)) (c : AnchorBlock)
    (o : Objects) : Objects :=
  match p with
  | some .held => { o with chainObjects := o.chainObjects.insert chainID c }
  | _ => o

theorem sat_updateAccount {Q : Option (Ref Account) → Env σ → Prop} (addr : Address)
    (entry : Account → JournalEntry) (f : Account → Account) (p : Option (Ref Account)) :
    Sat (updateAccount addr entry f p) w Q R ↔
      ∀ a, Ref.value (w.db.objects.account addr) p = some a →
        Q (Ref.assign (f a) p) (w.log (entry a) (Objects.assignAccount addr p (f a))) := by
  simp only [updateAccount, sat_bind, sat_deref, sat_addEntry]
  refine forall₂_congr fun a _ => ?_
  rcases p with _ | _ | b
  · simp_all [Ref.value]
  · exact Iff.rfl
  · exact Iff.rfl

theorem sat_updateChain {Q : Option (Ref AnchorBlock) → Env σ → Prop} (chainID : UInt64)
    (entry : AnchorBlock → JournalEntry) (f : AnchorBlock → AnchorBlock)
    (p : Option (Ref AnchorBlock)) :
    Sat (updateChain chainID entry f p) w Q R ↔
      ∀ c, Ref.value (w.db.objects.chain chainID) p = some c →
        Q (Ref.assign (f c) p) (w.log (entry c) (Objects.assignChain chainID p (f c))) := by
  simp only [updateChain, sat_bind, sat_deref, sat_addEntry]
  refine forall₂_congr fun c _ => ?_
  rcases p with _ | _ | b
  · simp_all [Ref.value]
  · exact Iff.rfl
  · exact Iff.rfl

/-! ## Undoing entries -/

/-- Change the account object of an address, if one is in the map. -/
def Objects.mapAccount (addr : Address) (f : Account → Account) (o : Objects) : Objects :=
  match o.account addr with
  | none => o
  | some a => { o with accountObjects := o.accountObjects.insert addr (some (f a)) }

/-- Change the chain object of a chain, if one is in the map. -/
def Objects.mapChain (chainID : UInt64) (f : AnchorBlock → AnchorBlock) (o : Objects) : Objects :=
  match o.chain chainID with
  | none => o
  | some c => { o with chainObjects := o.chainObjects.insert chainID (f c) }

theorem Objects.mapAccount_frame (addr : Address) (f : Account → Account) (o : Objects) :
    (o.mapAccount addr f).tokenIsSet = o.tokenIsSet ∧
      (o.mapAccount addr f).atxList = o.atxList := by
  unfold Objects.mapAccount
  split
  · exact ⟨rfl, rfl⟩
  · exact ⟨rfl, rfl⟩

theorem Objects.mapChain_frame (chainID : UInt64) (f : AnchorBlock → AnchorBlock) (o : Objects) :
    (o.mapChain chainID f).tokenIsSet = o.tokenIsSet ∧
      (o.mapChain chainID f).atxList = o.atxList := by
  unfold Objects.mapChain
  split
  · exact ⟨rfl, rfl⟩
  · exact ⟨rfl, rfl⟩

/-- What reverting the entry does to the maps. -/
def JournalEntry.undo : JournalEntry → Objects → Objects
  | .exitChange _ => id
  | .balanceChange _ _ _ => id
  | .withdrawChange _ _ _ => id
  | .ownerChange _ _ => id
  | .prevBlockChange _ _ => id
  | .accountTokenChange addr ts b d => Objects.mapAccount addr fun _ => ⟨ts, d, b⟩
  | .accountBalanceChange addr b => Objects.mapAccount addr fun a => { a with balance := b }
  | .accountDenominationChange addr d =>
      Objects.mapAccount addr fun a => { a with denomination := d }
  | .chainOwnerChange chainID os => Objects.mapChain chainID fun c => { c with owners := os }
  | .anchorBlockChange chainID s e =>
      Objects.mapChain chainID fun c => { c with startBlock := s, endBlock := e }

/-- Undo a list of entries, the last one first. -/
def undo (es : List JournalEntry) (o : Objects) : Objects := es.foldr JournalEntry.undo o

theorem undo_append (es es' : List JournalEntry) (o : Objects) :
    undo (es ++ es') o = undo es (undo es' o) := by
  simp [undo]

theorem undo_concat (es : List JournalEntry) (e : JournalEntry) (o : Objects) :
    undo (es ++ [e]) o = undo es (e.undo o) := by
  simp [undo]

/-- Undoing changes accounts and chains only. -/
theorem JournalEntry.undo_frame (e : JournalEntry) (o : Objects) :
    (e.undo o).tokenIsSet = o.tokenIsSet ∧ (e.undo o).atxList = o.atxList := by
  cases e with
  | exitChange | balanceChange | withdrawChange | ownerChange | prevBlockChange => exact ⟨rfl, rfl⟩
  | accountTokenChange | accountBalanceChange | accountDenominationChange =>
    exact Objects.mapAccount_frame _ _ o
  | chainOwnerChange | anchorBlockChange => exact Objects.mapChain_frame _ _ o

theorem undo_frame (es : List JournalEntry) (o : Objects) :
    (undo es o).tokenIsSet = o.tokenIsSet ∧ (undo es o).atxList = o.atxList := by
  induction es with
  | nil => exact ⟨rfl, rfl⟩
  | cons e es ih =>
    have he := JournalEntry.undo_frame e (undo es o)
    exact ⟨he.1.trans ih.1, he.2.trans ih.2⟩

/-! ## Reverting -/

/-- Where a call that reverts entries may lead: the maps are known, the journal has only grown. -/
structure Reverted (w : Env σ) (o : Objects) (w' : Env σ) : Prop where
  objects : w'.db.objects = o
  journal : w.db.journal <+: w'.db.journal
  revisions : w'.db.validRevisions = w.db.validRevisions
  nextId : w'.db.nextRevisionId = w.db.nextRevisionId

theorem Reverted.trans {w₁ w₂ : Env σ} {o₁ o₂ : Objects} (h : Reverted w o₁ w₁)
    (h' : Reverted w₁ o₂ w₂) : Reverted w o₂ w₂ :=
  ⟨h'.objects, h.journal.trans h'.journal, h'.revisions.trans h.revisions,
    h'.nextId.trans h.nextId⟩

theorem Reverted.store (w : Env σ) (st : σ) : Reverted w w.db.objects { w with store := st } :=
  ⟨rfl, List.prefix_refl _, rfl, rfl⟩

theorem Reverted.log (w : Env σ) (e : JournalEntry) (f : Objects → Objects) :
    Reverted w (f w.db.objects) (w.log e f) :=
  ⟨rfl, List.prefix_append _ _, rfl, rfl⟩

/-- A token entry is undone on a copy. -/
theorem sat_revertToken (S : Storage σ) (tokenID : UInt64) (set : TokenObject → M σ TokenObject)
    (hset : ∀ t w, Sat (set t) w (fun _ w' => Reverted w w.db.objects w') (fun _ _ => False)) :
    Sat (revertToken S tokenID set) w (fun _ w' => Reverted w w.db.objects w')
      (fun _ w' => Reverted w w.db.objects w') := by
  simp only [revertToken, getTokenObject, sat_bind, sat_onStore]
  intro r st _
  have hst := Reverted.store w st
  rcases r with e | _ | e | _ | e | t
  · exact hst
  · exact hst
  · exact hst
  · trivial
  · exact hst
  · rw [sat_pure, sat_bind]
    refine (hset ⟨t, false⟩ { w with store := st }).mono ?_ (fun _ _ h => h.elim)
    intro _ w' h
    exact hst.trans h

/-- An account entry is undone on the object in the map, or on a copy if there is none. -/
theorem sat_revertAccount (S : Storage σ) (addr : Address) (f : Account → Account) :
    Sat (revertAccount S addr f) w (fun _ w' => Reverted w (w.db.objects.mapAccount addr f) w')
      (fun _ w' => Reverted w (w.db.objects.mapAccount addr f) w') := by
  simp only [revertAccount, getOrCreateAccount, sat_bind, sat_getObjects]
  rcases hl : w.db.objects.accountObjects.lookup addr with _ | _ | a
  · have ho : w.db.objects.mapAccount addr f = w.db.objects := by
      simp [Objects.mapAccount, Objects.account, hl]
    simp only [sat_bind, sat_onStore, ho]
    intro r st _
    have hst := Reverted.store w st
    rcases r with e | _ | e | _ | e | t
    · exact hst
    · simpa [Ref.value, assignAccount] using hst
    · exact hst
    · simp [Ref.value]
    · exact hst
    · simpa [Ref.value, assignAccount] using hst
  · simp [Ref.value]
  · have ha : w.db.objects.account addr = some a := by simp [Objects.account, hl]
    simp only [sat_pure, sat_deref, Ref.value, ha, Option.some.injEq, forall_eq', sat_bind,
      assignAccount, sat_modifyObjects]
    exact ⟨by simp [Objects.mapAccount, ha], List.prefix_refl _, rfl, rfl⟩

/-- A chain entry is undone on the object in the map, or on a copy if there is none. -/
theorem sat_revertChain (S : Storage σ) (chainID : UInt64) (f : AnchorBlock → AnchorBlock) :
    Sat (revertChain S chainID f) w (fun _ w' => Reverted w (w.db.objects.mapChain chainID f) w')
      (fun _ w' => Reverted w (w.db.objects.mapChain chainID f) w') := by
  simp only [revertChain, getOrCreateChain, sat_bind, sat_getObjects]
  rcases hl : w.db.objects.chainObjects.lookup chainID with _ | c
  · have ho : w.db.objects.mapChain chainID f = w.db.objects := by
      simp [Objects.mapChain, Objects.chain, hl]
    simp only [sat_bind, sat_onStore, ho]
    intro r st _
    have hst := Reverted.store w st
    rcases r with e | _ | e | _ | e | t
    · exact hst
    · simpa [Ref.value, assignChain] using hst
    · exact hst
    · simp [Ref.value]
    · exact hst
    · simpa [Ref.value, assignChain] using hst
  · have hc : w.db.objects.chain chainID = some c := hl
    simp only [sat_pure, sat_deref, Ref.value, hc, Option.some.injEq, forall_eq', sat_bind,
      assignChain, sat_modifyObjects]
    exact ⟨by simp [Objects.mapChain, hc], List.prefix_refl _, rfl, rfl⟩

/-- Reverting an entry, if it does not panic, undoes it, also when it reports an error. -/
theorem JournalEntry.sat_revert (S : Storage σ) (e : JournalEntry) :
    Sat (e.revert S) w (fun _ w' => Reverted w (e.undo w.db.objects) w')
      (fun _ w' => Reverted w (e.undo w.db.objects) w') := by
  cases e with
  | exitChange tokenID =>
    exact sat_revertToken S tokenID _ fun t w => (sat_pure _).mpr (.store w w.store)
  | balanceChange tokenID b a =>
    exact sat_revertToken S tokenID _ fun t w => (sat_setBalance tokenID t b a).mpr (.log w _ id)
  | withdrawChange tokenID a s =>
    exact sat_revertToken S tokenID _ fun t w => (sat_setWithdrawal tokenID t a s).mpr (.log w _ id)
  | ownerChange tokenID o =>
    exact sat_revertToken S tokenID _ fun t w => (sat_setOwner tokenID t o).mpr (.log w _ id)
  | prevBlockChange tokenID b =>
    exact sat_revertToken S tokenID _ fun t w => (sat_setPrevBlock tokenID t b).mpr (.log w _ id)
  | accountTokenChange addr ts b d => exact sat_revertAccount S addr _
  | accountBalanceChange addr b => exact sat_revertAccount S addr _
  | accountDenominationChange addr d => exact sat_revertAccount S addr _
  | chainOwnerChange chainID os => exact sat_revertChain S chainID _
  | anchorBlockChange chainID s e => exact sat_revertChain S chainID _

/-- The loop of `RevertToSnapshot`. -/
theorem sat_revertAll (S : Storage σ) (es : List JournalEntry) :
    Sat (each (fun e => (e.revert S).orElse fun _ => pure ()) es.reverse) w
      (fun _ w' => Reverted w (undo es w.db.objects) w') (fun _ _ => False) := by
  -- the loop meets the last entry first, so the induction takes entries off the end
  induction es using List.reverseRecOn generalizing w with
  | nil => exact ⟨rfl, List.prefix_refl _, rfl, rfl⟩
  | append_singleton es e ih =>
    rw [List.reverse_concat, each, sat_bind, sat_orElse, undo_concat]
    have hrest : ∀ w', Reverted w (e.undo w.db.objects) w' →
        Sat (each (fun e => (e.revert S).orElse fun _ => pure ()) es.reverse) w'
          (fun _ w'' => Reverted w (undo es (e.undo w.db.objects)) w'') (fun _ _ => False) := by
      intro w' h
      refine ih.mono (fun _ w'' h' => ?_) (fun _ _ h' => h')
      rw [h.objects] at h'
      exact h.trans h'
    exact (JournalEntry.sat_revert S e).mono (fun _ w' h => hrest w' h) (fun _ w' h => hrest w' h)

/-- `sort.Search` finds a revision, when all before it are older. -/
theorem findIdx_revision {rs rs' : List Revision} {r : Revision} (h : ∀ r' ∈ rs, r'.id < r.id) :
    (rs ++ r :: rs').findIdx (fun r' => decide (r.id ≤ r'.id)) = rs.length := by
  have hrs : rs.findIdx (fun r' => decide (r.id ≤ r'.id)) = rs.length := by
    apply List.findIdx_eq_length_of_false
    intro r' hr'
    have := h r' hr'
    simpa using this
  rw [List.findIdx_append, hrs]
  simp [List.findIdx_cons]

/-- `RevertToSnapshot` of a valid revision: its loop, then the journal and the revisions are cut. -/
theorem revertToSnapshot_eq (S : Storage σ) {rs rs' : List Revision} {r : Revision}
    (hw : w.db.validRevisions = rs ++ r :: rs') (hr : ∀ r' ∈ rs, r'.id < r.id) :
    revertToSnapshot S r.id w = (do
      each (fun e => (JournalEntry.revert S e).orElse fun _ => pure ())
        (w.db.journal.drop r.journalIndex).reverse
      Act.modify fun w => { w with db := { w.db with
        journal := w.db.journal.take r.journalIndex
        validRevisions := w.db.validRevisions.take rs.length } } : M σ Unit) w := by
  rw [revertToSnapshot, bind_ok (rfl : (Act.get : M σ (Env σ)) w = .ok (.ok w, w))]
  simp only [hw, findIdx_revision hr, List.getElem?_append_right (le_refl _), Nat.sub_self,
    List.getElem?_cons_zero, ne_eq, not_true_eq_false, if_false]

/-- Reverting to a valid revision never fails, and it undoes what was done since. -/
theorem sat_revertToSnapshot (S : Storage σ) {rs rs' : List Revision} {r : Revision}
    (hw : w.db.validRevisions = rs ++ r :: rs') (hr : ∀ r' ∈ rs, r'.id < r.id) :
    Sat (revertToSnapshot S r.id) w
      (fun _ w' => w'.db.objects = undo (w.db.journal.drop r.journalIndex) w.db.objects ∧
        w'.db.validRevisions = rs ∧ w'.db.nextRevisionId = w.db.nextRevisionId ∧
        (r.journalIndex ≤ w.db.journal.length →
          w'.db.journal = w.db.journal.take r.journalIndex))
      (fun _ _ => False) := by
  unfold Sat
  rw [revertToSnapshot_eq S hw hr]
  change Sat _ w _ _
  simp only [sat_bind, sat_modify]
  refine (sat_revertAll S _).mono ?_ (fun _ _ h => h)
  intro _ w' h
  refine ⟨h.objects, ?_, h.nextId, ?_⟩
  · rw [h.revisions, hw, List.take_left]
  · intro hle
    obtain ⟨added, hadded⟩ := h.journal
    rw [← hadded, List.take_append_of_le_length hle]

/-! ## Changes that can be undone -/

/-- From `w₀` to `w` the maps have changed only as the journal tells. -/
structure Since (w₀ w : Env σ) : Prop where
  undone : ∃ es, w.db.journal = w₀.db.journal ++ es ∧ undo es w.db.objects = w₀.db.objects
  /-- No account object was added. -/
  account : ∀ addr, w₀.db.objects.account addr = none → w.db.objects.account addr = none
  /-- No chain object was added. -/
  chain : ∀ chainID, w₀.db.objects.chain chainID = none → w.db.objects.chain chainID = none
  revisions : w.db.validRevisions = w₀.db.validRevisions
  nextId : w.db.nextRevisionId = w₀.db.nextRevisionId

theorem Since.refl (w : Env σ) : Since w w :=
  ⟨⟨[], by simp, rfl⟩, fun _ h => h, fun _ h => h, rfl, rfl⟩

theorem Since.trans {w' : Env σ} (h : Since w₀ w) (h' : Since w w') : Since w₀ w' := by
  obtain ⟨es, hj, hu⟩ := h.undone
  obtain ⟨es', hj', hu'⟩ := h'.undone
  refine ⟨⟨es ++ es', ?_, ?_⟩, fun addr h₀ => h'.account addr (h.account addr h₀),
    fun chainID h₀ => h'.chain chainID (h.chain chainID h₀), h'.revisions.trans h.revisions,
    h'.nextId.trans h.nextId⟩
  · rw [hj', hj, List.append_assoc]
  · rw [undo_append, hu', hu]

/-- A step whose journal entry undoes it. -/
theorem Since.log (h : Since w₀ w) {e : JournalEntry} {f : Objects → Objects}
    (he : e.undo (f w.db.objects) = w.db.objects)
    (ha : ∀ addr, w.db.objects.account addr = none → (f w.db.objects).account addr = none)
    (hc : ∀ chainID, w.db.objects.chain chainID = none → (f w.db.objects).chain chainID = none) :
    Since w₀ (w.log e f) := by
  obtain ⟨es, hj, hu⟩ := h.undone
  refine ⟨⟨es ++ [e], ?_, ?_⟩, fun addr h₀ => ha addr (h.account addr h₀),
    fun chainID h₀ => hc chainID (h.chain chainID h₀), h.revisions, h.nextId⟩
  · simp [Env.log, hj]
  · rw [undo_concat]
    change undo es (e.undo (f w.db.objects)) = _
    rw [he, hu]

/-- The setters of a token object. -/
theorem Since.token (h : Since w₀ w) {e : JournalEntry} (he : e.undo = id) :
    Since w₀ (w.log e id) :=
  h.log (by rw [he]; rfl) (fun _ h => h) (fun _ h => h)

/-- Maps that a lookup shows to be unchanged. -/
theorem insert_lookup {κ β : Type} [DecidableEq κ] {m : GoMap κ β} {k : κ} {v : β}
    (h : m.lookup k = some v) : m.insert k v = m := by
  apply Finmap.ext_lookup
  intro x
  by_cases hx : x = k
  · subst hx
    rw [Finmap.lookup_insert, h]
  · rw [Finmap.lookup_insert_of_ne _ hx]

@[simp] theorem Objects.account_insert (o : Objects) (addr addr' : Address) (a : Option Account) :
    Objects.account addr' { o with accountObjects := o.accountObjects.insert addr a } =
      if addr' = addr then a else o.account addr' := by
  unfold Objects.account
  by_cases h : addr' = addr
  · subst h
    simp [Finmap.lookup_insert]
  · simp [Finmap.lookup_insert_of_ne _ h, h]

@[simp] theorem Objects.chain_insert (o : Objects) (k k' : UInt64) (c : AnchorBlock) :
    Objects.chain k' { o with chainObjects := o.chainObjects.insert k c } =
      if k' = k then some c else o.chain k' := by
  unfold Objects.chain
  by_cases h : k' = k
  · subst h
    simp [Finmap.lookup_insert]
  · simp [Finmap.lookup_insert_of_ne _ h, h]

theorem Objects.lookup_of_account {o : Objects} {addr : Address} {a : Account}
    (h : o.account addr = some a) : o.accountObjects.lookup addr = some (some a) :=
  Option.join_eq_some_iff.mp h

/-- A change of an account whose entry restores the old value. -/
theorem Since.updateAccount (h : Since w₀ w) {addr : Address} {p : Option (Ref Account)}
    {a a' : Account} {e : JournalEntry} {g : Account → Account}
    (hp : ∀ b, p = some (.fresh b) → w₀.db.objects.account addr = none)
    (ha : Ref.value (w.db.objects.account addr) p = some a)
    (he : e.undo = Objects.mapAccount addr g) (hg : g a' = a) :
    Since w₀ (w.log e (Objects.assignAccount addr p a')) := by
  rcases p with _ | _ | b
  · cases ha
  · -- the object is in the map: the entry puts the old value back
    change w.db.objects.account addr = some a at ha
    refine h.log ?_ ?_ (fun _ hc => hc)
    · simp only [he, Objects.assignAccount, Objects.mapAccount, Objects.account_insert, if_true,
        Finmap.insert_insert, hg, insert_lookup (Objects.lookup_of_account ha)]
    · intro addr' h'
      have hne : addr' ≠ addr := by
        rintro rfl
        rw [ha] at h'
        cases h'
      simp only [Objects.assignAccount, Objects.account_insert, if_neg hne, h']
  · -- the object is in no map: the entry has nothing to restore
    have hnone := h.account addr (hp b rfl)
    refine h.log ?_ (fun _ h' => h') (fun _ hc => hc)
    simp only [he, Objects.assignAccount, Objects.mapAccount, hnone]

/-- A change of a chain whose entry restores the old value. -/
theorem Since.updateChain (h : Since w₀ w) {chainID : UInt64} {p : Option (Ref AnchorBlock)}
    {c c' : AnchorBlock} {e : JournalEntry} {g : AnchorBlock → AnchorBlock}
    (hp : ∀ b, p = some (.fresh b) → w₀.db.objects.chain chainID = none)
    (hc : Ref.value (w.db.objects.chain chainID) p = some c)
    (he : e.undo = Objects.mapChain chainID g) (hg : g c' = c) :
    Since w₀ (w.log e (Objects.assignChain chainID p c')) := by
  rcases p with _ | _ | b
  · cases hc
  · change w.db.objects.chain chainID = some c at hc
    refine h.log ?_ (fun _ h' => h') ?_
    · have hl : w.db.objects.chainObjects.lookup chainID = some c := hc
      simp only [he, Objects.assignChain, Objects.mapChain, Objects.chain_insert, if_true,
        Finmap.insert_insert, hg, insert_lookup hl]
    · intro k h'
      have hne : k ≠ chainID := by
        rintro rfl
        rw [hc] at h'
        cases h'
      simp only [Objects.assignChain, Objects.chain_insert, if_neg hne, h']
  · have hnone := h.chain chainID (hp b rfl)
    refine h.log ?_ (fun _ h' => h') (fun _ h' => h')
    simp only [he, Objects.assignChain, Objects.mapChain, hnone]

end GoPlasma.Plasma
