import GoPlasma.Plasma.JournalTheorems

/-!
# What applying a token transaction changes

`ApplyPlasmaTransaction` reads two accounts and a token (`readPlasma`), changes these objects
(`changePlasma`) and puts them into the maps (`appendObjects`). `Changed` says what the second part
does, in terms of pure functions on the records: `newToken` for the token, `received` for the
account of the recipient and `sent` for that of the previous owner.
-/

namespace GoPlasma.Plasma

open Act

variable {σ : Type} {w w₀ w₁ w₂ : Env σ} {tx : Transaction} {k k₁ k₂ : Work}

/-! ## The records after a transaction -/

/-- An account with a token added. -/
def Account.credit (tokenID : UInt64) (t : Token) (a : Account) : Account :=
  ⟨a.tokens ++ [tokenID], a.denomination + t.denomination.toNat, a.balance + t.balance.toNat⟩

/-- An account with a token removed. -/
def Account.debit (tokenID : UInt64) (t : Token) (a : Account) : Account :=
  ⟨a.tokens.filter (fun tID => tID ≠ tokenID), a.denomination - t.denomination.toNat,
    a.balance - t.balance.toNat⟩

/-- The token after the operator's withdrawal. -/
def withdrawn (tx : Transaction) (t : Token) : Token :=
  if t.spent < tx.spent then { t with allowance := tx.allowance, spent := tx.spent } else t

/-- The token after a change of its balance. -/
def consumed (tx : Transaction) (t : Token) : Token :=
  if tx.balance ≠ t.balance then { t with balance := tx.balance, allowance := tx.allowance } else t

/-- The token after a transfer, its `PrevBlock` apart. -/
def newToken (tx : Transaction) (t : Token) : Token :=
  consumed tx (withdrawn tx { t with owner := tx.recipient })

/-- The recipient's account after a change of the balance of the token. -/
def charged (tx : Transaction) (t : Token) (a : Account) : Account :=
  if tx.balance ≠ t.balance then { a with balance := a.balance - (t.balance - tx.balance).toNat }
  else a

/-- The recipient's account after a transfer. -/
def received (tx : Transaction) (t : Token) (a : Account) : Account :=
  charged tx t (if t.owner ≠ tx.recipient then a.credit tx.tokenID t else a)

/-- The previous owner's account after a transfer to somebody else. -/
def sent (tx : Transaction) (t : Token) (a : Account) : Account :=
  if t.owner ≠ tx.recipient then a.debit tx.tokenID t else a

/-- A transfer that changes something. -/
def Dirties (tx : Transaction) (t : Token) : Prop :=
  t.owner ≠ tx.recipient ∨ t.spent < tx.spent ∨ tx.balance ≠ t.balance

instance (tx : Transaction) (t : Token) : Decidable (Dirties tx t) := by
  unfold Dirties
  infer_instance

/-! ## Pointers -/

/-- A pointer into the map of accounts is one to an object that is there, and an object that is not
in the map is the only one for its address. -/
def RefOk (o : Objects) (addr : Address) : Option (Ref Account) → Prop
  | none => True
  | some .held => o.account addr ≠ none
  | some (.fresh _) => o.accountObjects.lookup addr = none

theorem RefOk.fresh {o : Objects} {addr : Address} {p : Option (Ref Account)} (h : RefOk o addr p)
    {b : Account} (hp : p = some (.fresh b)) : o.account addr = none := by
  subst hp
  have hl : o.accountObjects.lookup addr = none := h
  simp [Objects.account, hl]

theorem RefOk.congr {o o' : Objects} {addr : Address} {p : Option (Ref Account)}
    (h : RefOk o addr p) (hl : o'.accountObjects.lookup addr = o.accountObjects.lookup addr) :
    RefOk o' addr p := by
  rcases p with _ | _ | b
  · trivial
  · simpa [RefOk, Objects.account, hl] using h
  · simpa [RefOk, hl] using h

theorem RefOk.assign {o : Objects} {addr : Address} {p : Option (Ref Account)} (h : RefOk o addr p)
    (hp : p ≠ none) (a : Account) : RefOk (o.assignAccount addr p a) addr (Ref.assign a p) := by
  rcases p with _ | _ | b
  · exact absurd rfl hp
  · simp [RefOk, Ref.assign, Objects.assignAccount]
  · exact h

theorem value_assign (o : Objects) (addr : Address) {p : Option (Ref Account)} (hp : p ≠ none)
    (a : Account) :
    Ref.value ((o.assignAccount addr p a).account addr) (Ref.assign a p) = some a := by
  rcases p with _ | _ | b
  · exact absurd rfl hp
  · simp [Ref.value, Ref.assign, Objects.assignAccount]
  · rfl

theorem lookup_assign (o : Objects) {addr addr' : Address} (p : Option (Ref Account)) (a : Account)
    (h : addr' ≠ addr) :
    (o.assignAccount addr p a).accountObjects.lookup addr' = o.accountObjects.lookup addr' := by
  rcases p with _ | _ | b
  · rfl
  · exact Finmap.lookup_insert_of_ne _ h
  · rfl

theorem assignAccount_frame (o : Objects) (addr : Address) (p : Option (Ref Account))
    (a : Account) : ∃ m, o.assignAccount addr p a = { o with accountObjects := m } := by
  rcases p with _ | _ | b
  · exact ⟨_, rfl⟩
  · exact ⟨_, rfl⟩
  · exact ⟨_, rfl⟩

theorem value_ne_none {α : Type} {h : Option α} {p : Option (Ref α)} {a : α}
    (hv : Ref.value h p = some a) : p ≠ none := by
  rintro rfl
  cases hv

/-! ## Changes of the objects -/

/-- The token has become `ft` of what it was, the recipient's account `fr` and the previous owner's
account `fs`; `d` and `sd` say whether the two flags were set. -/
structure Changed (tx : Transaction) (ft : Token → Token) (fr fs : Account → Account) (d sd : Prop)
    (k : Work) (w : Env σ) (k' : Work) (w' : Env σ) : Prop where
  since : Since w w'
  store : w'.store = w.store
  frame : ∃ m, w'.db.objects = { w.db.objects with accountObjects := m }
  token : k'.sobj = { k.sobj with token := ft k.sobj.token }
  recipientOk : RefOk w.db.objects tx.recipient k.recipientobj →
    RefOk w'.db.objects tx.recipient k'.recipientobj
  recipient : Ref.value (w'.db.objects.account tx.recipient) k'.recipientobj =
    (Ref.value (w.db.objects.account tx.recipient) k.recipientobj).map fr
  senderOk : tx.prevOwner ≠ tx.recipient → RefOk w.db.objects tx.prevOwner k.senderobj →
    RefOk w'.db.objects tx.prevOwner k'.senderobj
  sender : tx.prevOwner ≠ tx.recipient →
    Ref.value (w'.db.objects.account tx.prevOwner) k'.senderobj =
      (Ref.value (w.db.objects.account tx.prevOwner) k.senderobj).map fs
  others : ∀ addr, addr ≠ tx.recipient → (addr = tx.prevOwner → ¬ sd) →
    w'.db.objects.accountObjects.lookup addr = w.db.objects.accountObjects.lookup addr
  dirtied : k'.dirtied = true ↔ k.dirtied = true ∨ d
  senderdirtied : k'.senderdirtied = true ↔ k.senderdirtied = true ∨ sd

section
variable {ft ft' : Token → Token} {fr fr' fs fs' : Account → Account} {d d' sd sd' : Prop}

theorem Changed.refl (tx : Transaction) (k : Work) (w : Env σ) :
    Changed tx id id id False False k w k w where
  since := .refl w
  store := rfl
  frame := ⟨_, rfl⟩
  token := rfl
  recipientOk h := h
  recipient := by simp
  senderOk _ h := h
  sender _ := by simp
  others _ _ _ := rfl
  dirtied := by simp
  senderdirtied := by simp

theorem Changed.trans (h : Changed tx ft fr fs d sd k w k₁ w₁)
    (h' : Changed tx ft' fr' fs' d' sd' k₁ w₁ k₂ w₂) :
    Changed tx (ft' ∘ ft) (fr' ∘ fr) (fs' ∘ fs) (d ∨ d') (sd ∨ sd') k w k₂ w₂ where
  since := h.since.trans h'.since
  store := h'.store.trans h.store
  frame := by
    obtain ⟨m, hm⟩ := h.frame
    obtain ⟨m', hm'⟩ := h'.frame
    exact ⟨m', by rw [hm', hm]⟩
  token := by rw [h'.token, h.token]; rfl
  recipientOk hr := h'.recipientOk (h.recipientOk hr)
  recipient := by rw [h'.recipient, h.recipient, Option.map_map]
  senderOk hne hs := h'.senderOk hne (h.senderOk hne hs)
  sender hne := by rw [h'.sender hne, h.sender hne, Option.map_map]
  others addr hr hs := by
    rw [h'.others addr hr fun ha hd => hs ha (.inr hd),
      h.others addr hr fun ha hd => hs ha (.inl hd)]
  dirtied := by rw [h'.dirtied, h.dirtied, or_assoc]
  senderdirtied := by rw [h'.senderdirtied, h.senderdirtied, or_assoc]

/-- Functions that agree on the records at hand may be exchanged. -/
theorem Changed.congr (h : Changed tx ft fr fs d sd k w k₁ w₁)
    (ht : ft k.sobj.token = ft' k.sobj.token) (hr : fr = fr') (hs : fs = fs') (hd : d ↔ d')
    (hsd : sd ↔ sd') : Changed tx ft' fr' fs' d' sd' k w k₁ w₁ := by
  subst hr hs
  obtain rfl : d = d' := propext hd
  obtain rfl : sd = sd' := propext hsd
  exact { h with token := by rw [h.token, ht] }

end

/-! ## The steps -/

/-- A setter of the token object. -/
theorem Changed.setToken (tx : Transaction) (ft : Token → Token) (k : Work) (w : Env σ)
    {e : JournalEntry} (he : e.undo = id) :
    Changed tx ft id id True False k w
      { k with sobj := { k.sobj with token := ft k.sobj.token }, dirtied := true }
        (w.log e id) where
  since := (Since.refl w).token he
  store := rfl
  frame := ⟨_, rfl⟩
  token := rfl
  recipientOk h := h
  recipient := by simp [Env.log]
  senderOk _ h := h
  sender _ := by simp [Env.log]
  others _ _ _ := rfl
  dirtied := by simp
  senderdirtied := by simp

/-- A change of the recipient's account. -/
theorem Changed.setRecipient (tx : Transaction) (k : Work) (w : Env σ) {e : JournalEntry}
    {a : Account}
    {f g : Account → Account} (hok : RefOk w.db.objects tx.recipient k.recipientobj)
    (ha : Ref.value (w.db.objects.account tx.recipient) k.recipientobj = some a)
    (he : e.undo = Objects.mapAccount tx.recipient g) (hg : g (f a) = a) :
    Changed tx id f id True False k w
      { k with recipientobj := Ref.assign (f a) k.recipientobj, dirtied := true }
      (w.log e (Objects.assignAccount tx.recipient k.recipientobj (f a))) where
  since := (Since.refl w).updateAccount (fun _ hp => hok.fresh hp) ha he hg
  store := rfl
  frame := assignAccount_frame _ _ _ _
  token := rfl
  recipientOk h := h.assign (value_ne_none ha) _
  recipient := by
    rw [ha]
    exact value_assign _ _ (value_ne_none ha) _
  senderOk hne h := h.congr (lookup_assign _ _ _ hne)
  sender hne := by
    simp only [Env.log, Objects.account, lookup_assign _ _ _ hne, Option.map_id_fun, id]
  others addr hr _ := lookup_assign _ _ _ hr
  dirtied := by simp
  senderdirtied := by simp

/-- A change of the previous owner's account. -/
theorem Changed.setSender (tx : Transaction) (k : Work) (w : Env σ) {e : JournalEntry} {a : Account}
    {f g : Account → Account} (hne : tx.prevOwner ≠ tx.recipient)
    (hok : RefOk w.db.objects tx.prevOwner k.senderobj)
    (ha : Ref.value (w.db.objects.account tx.prevOwner) k.senderobj = some a)
    (he : e.undo = Objects.mapAccount tx.prevOwner g) (hg : g (f a) = a) :
    Changed tx id id f True True k w
      { k with senderobj := Ref.assign (f a) k.senderobj, dirtied := true, senderdirtied := true }
      (w.log e (Objects.assignAccount tx.prevOwner k.senderobj (f a))) where
  since := (Since.refl w).updateAccount (fun _ hp => hok.fresh hp) ha he hg
  store := rfl
  frame := assignAccount_frame _ _ _ _
  token := rfl
  recipientOk h := h.congr (lookup_assign _ _ _ hne.symm)
  recipient := by
    simp only [Env.log, Objects.account, lookup_assign _ _ _ hne.symm, Option.map_id_fun, id]
  senderOk _ h := h.assign (value_ne_none ha) _
  sender _ := by
    rw [ha]
    exact value_assign _ _ (value_ne_none ha) _
  others addr hr hs := lookup_assign _ _ _ fun h => hs h trivial
  dirtied := by simp
  senderdirtied := by simp

/-- Both pointers of a transaction are good. -/
structure Work.Ok (tx : Transaction) (o : Objects) (k : Work) : Prop where
  recipient : RefOk o tx.recipient k.recipientobj
  sender : RefOk o tx.prevOwner k.senderobj

theorem sat_addToken {Q : Option (Ref Account) → Env σ → Prop} {R : String → Env σ → Prop}
    (addr : Address) (tokenID : UInt64) (t : Token) (p : Option (Ref Account)) :
    Sat (addToken addr tokenID t.balance t.denomination p) w Q R ↔
      ∀ a, Ref.value (w.db.objects.account addr) p = some a →
        Q (Ref.assign (a.credit tokenID t) p)
          (w.log (tokenChange addr a) (Objects.assignAccount addr p (a.credit tokenID t))) :=
  sat_updateAccount addr _ _ p

theorem sat_removeToken {Q : Option (Ref Account) → Env σ → Prop} {R : String → Env σ → Prop}
    (addr : Address) (tokenID : UInt64) (t : Token) (p : Option (Ref Account)) :
    Sat (removeToken addr tokenID t.balance t.denomination p) w Q R ↔
      ∀ a, Ref.value (w.db.objects.account addr) p = some a →
        Q (Ref.assign (a.debit tokenID t) p)
          (w.log (tokenChange addr a) (Objects.assignAccount addr p (a.debit tokenID t))) :=
  sat_updateAccount addr _ _ p

theorem sat_changeOwner (hk : k.Ok tx w.db.objects) (ho : k.sobj.token.owner = tx.prevOwner) :
    Sat (changeOwner tx k) w
      (fun k' w' => Changed tx (fun t => { t with owner := tx.recipient })
        (fun a => if k.sobj.token.owner ≠ tx.recipient then a.credit tx.tokenID k.sobj.token else a)
        (sent tx k.sobj.token) (k.sobj.token.owner ≠ tx.recipient)
        (k.sobj.token.owner ≠ tx.recipient) k w k' w') (fun _ _ => False) := by
  unfold changeOwner
  by_cases hr : k.sobj.token.owner = tx.recipient
  · -- the owner stays: nothing happens
    simp only [hr, ne_eq, not_true_eq_false, if_false, sat_pure]
    refine (Changed.refl tx k w).congr ?_ rfl ?_ Iff.rfl Iff.rfl
    · rw [← hr]
      rfl
    · funext a
      simp [sent, hr]
  · simp only [ne_eq, hr, not_false_eq_true, if_true, sat_bind, sat_setOwner]
    have hne : tx.prevOwner ≠ tx.recipient := ho ▸ hr
    refine (sat_addToken tx.recipient tx.tokenID _ _).mpr fun a ha => ?_
    refine (sat_removeToken tx.prevOwner tx.tokenID _ _).mpr fun b hb => ?_
    -- the three changes one after the other: token, recipient, previous owner
    have h₁ := Changed.setToken tx (fun t => { t with owner := tx.recipient }) k w
      (e := .ownerChange tx.tokenID k.sobj.token.owner) rfl
    have h₂ := Changed.setRecipient tx _ _ (e := tokenChange tx.recipient a)
      (f := Account.credit tx.tokenID k.sobj.token) (g := fun _ => a) (h₁.recipientOk hk.recipient)
      ha rfl rfl
    have h₁₂ := h₁.trans h₂
    have h₃ := Changed.setSender tx _ _ (e := tokenChange tx.prevOwner b)
      (f := Account.debit tx.tokenID k.sobj.token) (g := fun _ => b) hne
      (h₁₂.senderOk hne hk.sender) hb rfl rfl
    refine (h₁₂.trans h₃).congr rfl ?_ ?_ (by simp) (by simp)
    · rfl
    · funext c
      simp [sent, hr]

theorem sat_withdraw : Sat (withdraw tx k) w
    (fun k' w' => Changed tx (withdrawn tx) id id (k.sobj.token.spent < tx.spent) False k w k' w')
    (fun _ _ => False) := by
  unfold withdraw
  by_cases hs : k.sobj.token.spent < tx.spent
  · simp only [hs, if_true, sat_bind, sat_setWithdrawal, sat_pure]
    have h := Changed.setToken tx
      (fun t => { t with allowance := tx.allowance, spent := tx.spent }) k w
      (e := .withdrawChange tx.tokenID k.sobj.token.allowance k.sobj.token.spent) rfl
    refine h.congr ?_ rfl rfl Iff.rfl Iff.rfl
    simp [withdrawn, hs]
  · simp only [hs, if_false, sat_pure]
    refine (Changed.refl tx k w).congr ?_ rfl rfl Iff.rfl Iff.rfl
    simp [withdrawn, hs]

theorem sat_consume (hk : RefOk w.db.objects tx.recipient k.recipientobj) :
    Sat (consume tx k) w
      (fun k' w' => Changed tx (consumed tx) (charged tx k.sobj.token) id
        (tx.balance ≠ k.sobj.token.balance) False k w k' w') (fun _ _ => False) := by
  unfold consume
  by_cases hb : tx.balance = k.sobj.token.balance
  · simp only [hb, ne_eq, not_true_eq_false, if_false, sat_pure]
    refine (Changed.refl tx k w).congr ?_ ?_ rfl Iff.rfl Iff.rfl
    · simp [consumed, hb]
    · funext a
      simp [charged, hb]
  · simp only [ne_eq, hb, not_false_eq_true, if_true, sat_bind, sat_setBalance]
    refine (sat_updateAccount tx.recipient _ _ _).mpr fun a ha => ?_
    have h₁ := Changed.setToken tx
      (fun t => { t with balance := tx.balance, allowance := tx.allowance }) k w
      (e := .balanceChange tx.tokenID k.sobj.token.balance k.sobj.token.allowance) rfl
    have h₂ := Changed.setRecipient tx _ _
      (e := .accountBalanceChange tx.recipient a.balance)
      (f := fun a => { a with balance := a.balance - (k.sobj.token.balance - tx.balance).toNat })
      (g := fun c => { c with balance := a.balance }) (h₁.recipientOk hk) ha rfl rfl
    refine (h₁.trans h₂).congr ?_ ?_ rfl (by simp) (by simp)
    · simp [consumed, hb]
    · funext c
      simp [charged, hb]

/-! ## The three parts of `ApplyPlasmaTransaction` -/

/-- The token that a transaction is about, after the checks on its record. -/
def readToken (S : Storage σ) (tx : Transaction) : M σ TokenObject :=
  if tx.prevBlock = 0 then createDeposit S tx.tokenID tx.denomination tx.recipient
  else do
    match ← getTokenObject S tx.tokenID with
    | none => .panic .nilDereference
    | some sobj =>
      match transferError tx sobj with
      | some e => .fail e
      | none => pure sobj

/-- The reads of a transaction, with the checks on what was read. -/
def readPlasma (S : Storage σ) (tx : Transaction) : M σ Work := do
  let senderobj ← (getOrCreateAccount S tx.prevOwner).orElse fun _ => pure none
  let recipientobj ← getOrCreateAccount S tx.recipient
  let sobj ← readToken S tx
  pure ⟨sobj, senderobj, recipientobj, false, false⟩

/-- The changes of the objects that were read. -/
def changePlasma (tx : Transaction) (k : Work) : M σ Work :=
  if tx.prevBlock = 0 then do
    let recipientobj ← addToken tx.recipient tx.tokenID k.sobj.token.balance
      k.sobj.token.denomination k.recipientobj
    pure { k with recipientobj := recipientobj, dirtied := true }
  else do
    let k ← changeOwner tx k
    let k ← withdraw tx k
    consume tx k

theorem sat_updatePlasma (C : Crypto) (S : Storage σ) (n : ℕ) {Q : Unit → Env σ → Prop}
    {R : String → Env σ → Prop} :
    Sat (updatePlasma C S n tx) w Q R ↔
      Sat (readPlasma S tx) w (fun k w₁ => Sat (changePlasma tx k) w₁
        (fun k' w₂ => Sat (appendObjects C n tx k') w₂ Q R) R) R := by
  by_cases h : tx.prevBlock = 0
  · simp only [updatePlasma, readPlasma, readToken, changePlasma, applyDeposit, h, if_true,
      sat_bind,
      sat_pure]
  · simp only [updatePlasma, readPlasma, readToken, changePlasma, applyTransfer, h, if_false,
      sat_bind, sat_pure]
    refine sat_congr fun _ _ => sat_congr fun _ _ => sat_congr fun sobj _ => ?_
    rcases sobj with _ | sobj
    · exact Iff.rfl
    · dsimp only
      rcases transferError tx sobj with _ | e
      · simp only [sat_bind, sat_pure]
      · exact Iff.rfl

/-! ## Reading -/

theorem sat_getOrCreateAccount (S : Storage σ) (addr : Address) :
    Sat (getOrCreateAccount S addr) w
      (fun p w' => w'.db = w.db ∧ RefOk w.db.objects addr p) (fun _ w' => w'.db = w.db) := by
  simp only [getOrCreateAccount, sat_bind, sat_getObjects]
  rcases hl : w.db.objects.accountObjects.lookup addr with _ | _ | a
  · simp only [sat_bind, sat_onStore]
    intro r st _
    rcases r with e | _ | e | _ | e | a
    · exact rfl
    · exact ⟨rfl, hl⟩
    · exact rfl
    · exact ⟨rfl, trivial⟩
    · exact rfl
    · exact ⟨rfl, hl⟩
  · exact ⟨rfl, trivial⟩
  · exact ⟨rfl, by simp [RefOk, Objects.account, hl]⟩

theorem sat_readToken (S : Storage σ) :
    Sat (readToken S tx) w
      (fun sobj w' => w'.db = w.db ∧ (tx.prevBlock ≠ 0 → transferError tx sobj = none))
      (fun _ w' => w'.db = w.db) := by
  by_cases h : tx.prevBlock = 0
  · simp only [readToken, createDeposit, h, if_true, sat_bind, sat_onStore]
    intro r st _
    rcases r with e | _ | _
    · exact rfl
    · exact ⟨rfl, fun h' => absurd rfl h'⟩
    · exact rfl
  · simp only [readToken, getTokenObject, h, if_false, sat_bind, sat_onStore]
    intro r st _
    rcases r with e | _ | e | _ | e | t
    · exact rfl
    · exact rfl
    · exact rfl
    · trivial
    · exact rfl
    · simp only [sat_pure]
      rcases ht : transferError tx ⟨t, false⟩ with _ | e
      · exact ⟨rfl, fun _ => ht⟩
      · exact rfl

theorem sat_readPlasma (S : Storage σ) :
    Sat (readPlasma S tx) w
      (fun k w' => w'.db = w.db ∧ k.Ok tx w.db.objects ∧
        (tx.prevBlock ≠ 0 → transferError tx k.sobj = none) ∧
        k.dirtied = false ∧ k.senderdirtied = false)
      (fun _ w' => w'.db = w.db) := by
  simp only [readPlasma, sat_bind, sat_orElse, sat_pure]
  have hrest : ∀ p (w₁ : Env σ), w₁.db = w.db → RefOk w.db.objects tx.prevOwner p →
      Sat (getOrCreateAccount S tx.recipient) w₁
        (fun r w₂ => Sat (readToken S tx) w₂
          (fun sobj w₃ => w₃.db = w.db ∧ Work.Ok tx w.db.objects ⟨sobj, p, r, false, false⟩ ∧
            (tx.prevBlock ≠ 0 → transferError tx sobj = none) ∧ True ∧ True)
          (fun _ w₃ => w₃.db = w.db)) (fun _ w₂ => w₂.db = w.db) := by
    intro p w₁ h₁ hp
    refine (sat_getOrCreateAccount S tx.recipient).mono ?_ (fun _ w₂ h₂ => h₂.trans h₁)
    rintro r w₂ ⟨h₂, hr⟩
    refine (sat_readToken S).mono ?_ (fun _ w₃ h₃ => h₃.trans (h₂.trans h₁))
    rintro sobj w₃ ⟨h₃, ht⟩
    rw [h₁] at hr
    exact ⟨h₃.trans (h₂.trans h₁), ⟨hr, hp⟩, ht, trivial, trivial⟩
  exact (sat_getOrCreateAccount S tx.prevOwner).mono (fun p w₁ h => hrest p w₁ h.1 h.2)
    (fun _ w₁ h => hrest none w₁ h trivial)

/-- A transfer that passes the checks comes from the owner. -/
theorem owner_of_transferError {sobj : TokenObject} (h : transferError tx sobj = none) :
    sobj.token.owner = tx.prevOwner := by
  by_contra hne
  simp only [transferError] at h
  split_ifs at h

/-! ## Changing -/

/-- The token after a transaction, its `PrevBlock` apart. -/
def tokenAfter (tx : Transaction) (t : Token) : Token :=
  if tx.prevBlock = 0 then t else newToken tx t

/-- The recipient's account after a transaction. -/
def recipientAfter (tx : Transaction) (t : Token) (a : Account) : Account :=
  if tx.prevBlock = 0 then a.credit tx.tokenID t else received tx t a

/-- The previous owner's account after a transaction. -/
def senderAfter (tx : Transaction) (t : Token) (a : Account) : Account :=
  if tx.prevBlock = 0 then a else sent tx t a

theorem sat_changePlasma (hk : k.Ok tx w.db.objects)
    (ho : tx.prevBlock ≠ 0 → k.sobj.token.owner = tx.prevOwner) :
    Sat (changePlasma tx k) w
      (fun k' w' => Changed tx (tokenAfter tx) (recipientAfter tx k.sobj.token)
        (senderAfter tx k.sobj.token) (tx.prevBlock = 0 ∨ Dirties tx k.sobj.token)
        (tx.prevBlock ≠ 0 ∧ k.sobj.token.owner ≠ tx.recipient) k w k' w') (fun _ _ => False) := by
  by_cases h : tx.prevBlock = 0
  · simp only [changePlasma, h, if_true, sat_bind, sat_pure]
    refine (sat_addToken tx.recipient tx.tokenID _ _).mpr fun a ha => ?_
    have hc := Changed.setRecipient tx k w (e := tokenChange tx.recipient a)
      (f := Account.credit tx.tokenID k.sobj.token) (g := fun _ => a) hk.recipient ha rfl rfl
    refine hc.congr ?_ ?_ ?_ (by simp) (by simp)
    · simp [tokenAfter, h]
    · funext c
      simp [recipientAfter, h]
    · funext c
      simp [senderAfter, h]
  · simp only [changePlasma, h, if_false, sat_bind]
    refine (sat_changeOwner hk (ho h)).mono ?_ (fun _ _ h => h)
    intro k₁ w₁ h₁
    refine sat_withdraw.mono ?_ (fun _ _ h => h)
    intro k₂ w₂ h₂
    have h₁₂ := h₁.trans h₂
    refine (sat_consume (h₁₂.recipientOk hk.recipient)).mono ?_ (fun _ _ h => h)
    intro k₃ w₃ h₃
    -- withdrawal and consumption look at fields that the steps before them leave alone
    have ht₁ : k₁.sobj.token = { k.sobj.token with owner := tx.recipient } := by rw [h₁.token]
    have ht₂ : k₂.sobj.token.balance = k.sobj.token.balance := by
      rw [h₂.token, ht₁]
      simp only [withdrawn]
      split_ifs
      · rfl
      · rfl
    refine (h₁₂.trans h₃).congr ?_ ?_ ?_ ?_ ?_
    · simp [tokenAfter, newToken, h]
    · funext c
      simp [recipientAfter, received, charged, h, ht₂]
    · funext c
      simp [senderAfter, h]
    · simp [Dirties, ht₁, ht₂, or_assoc]
    · simp [h]

/-! ## Appending -/

/-- The maps with a pointer put into the map of accounts. -/
def Objects.place (addr : Address) (p : Option (Ref Account)) (o : Objects) : Objects :=
  match p with
  | none => { o with accountObjects := o.accountObjects.insert addr none }
  | some (.fresh a) => { o with accountObjects := o.accountObjects.insert addr (some a) }
  | some .held => o

/-- The maps with the objects of a transaction put into them. -/
def appended (C : Crypto) (n : ℕ) (tx : Transaction) (k : Work) (o : Objects) : Objects :=
  let o := { o with
    tokenObjects := o.tokenObjects.insert tx.tokenID
      { k.sobj with token := { k.sobj.token with prevBlock := n + 1 } }
    tokenIsSet := o.tokenIsSet.insert tx.tokenID true
    thashList := o.thashList.insert tx.tokenID (tx.hash C) }
  let o := o.place tx.recipient k.recipientobj
  if k.senderdirtied then o.place tx.prevOwner k.senderobj else o

@[simp] theorem sat_setAccountObject {Q : Unit → Env σ → Prop} {R : String → Env σ → Prop}
    (addr : Address) (p : Option (Ref Account)) :
    Sat (setAccountObject addr p : M σ Unit) w Q R ↔
      Q () { w with db := { w.db with objects := w.db.objects.place addr p } } := by
  rcases p with _ | _ | a
  · exact Iff.rfl
  · exact Iff.rfl
  · exact Iff.rfl

theorem sat_appendObjects (C : Crypto) (n : ℕ) {Q : Unit → Env σ → Prop}
    {R : String → Env σ → Prop}
    (hok : w.db.objects.tokenIsSet.lookup tx.tokenID ≠ some true → k.dirtied = true →
      Q () (w.log (.prevBlockChange tx.tokenID k.sobj.token.prevBlock) (appended C n tx k)))
    (herr : ∀ e, w.db.objects.tokenIsSet.lookup tx.tokenID = some true ∨ k.dirtied = false →
      R e w) :
    Sat (appendObjects C n tx k) w Q R := by
  simp only [appendObjects, sat_bind, sat_getObjects]
  split
  · rename_i h
    exact herr _ (.inl h)
  · rename_i h
    -- only a transaction that has changed something is appended
    by_cases hd : k.dirtied = true
    · simp only [hd, if_true, sat_bind, sat_setPrevBlock, append, sat_modifyObjects,
        sat_setAccountObject]
      have hQ := hok (by simpa using h) hd
      by_cases hs : k.senderdirtied = true
      · simp only [Env.log, appended, hs, if_true] at hQ
        rw [if_pos hs, sat_setAccountObject]
        exact hQ
      · simp only [Env.log, appended, hs] at hQ
        rw [if_neg hs]
        exact hQ
    · rw [if_neg hd]
      exact herr _ (.inr (by simpa using hd))

end GoPlasma.Plasma
