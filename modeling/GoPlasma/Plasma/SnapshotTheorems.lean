import GoPlasma.Plasma.AtomicityTheorems

/-!
# What `RevertToSnapshot` restores

The setters of the objects in the maps of a `StateDB`, with `Snapshot` and `RevertToSnapshot`
between them. Accounts and the owners of chains come back as they were. Tokens do not, since their
entries are undone on copies; and a chain of which the start or the end was set comes back with its
start at its old end, which is what both setters record.

The lists of tokens and owners are values here: `append` writes behind the end of every slice that
the journal holds of the same array, and `RemoveToken` makes a new list.
-/

namespace GoPlasma.Plasma

open Act

variable {σ : Type} {S : Storage σ} {w w₀ w₁ : Env σ}

/-! ## Calls on the objects in the maps -/

/-- The setters of a token object. -/
inductive TokenSetter where
  | setOwner (owner : Address)
  | setBalance (balance allowance : UInt64)
  | setWithdrawal (allowance spent : UInt64)
  | setPrevBlock (prevBlocknum : ℕ)
  | setExit

/-- The setters of an account object. -/
inductive AccountSetter where
  | addToken (tokenID : UInt64) (tokenBalance tokenDenomination : ℤ)
  | removeToken (tokenID : UInt64) (tokenBalance tokenDenomination : ℤ)
  | setAccountBalance (balance : ℤ)
  | setAccountDenomination (denomination : ℤ)

/-- The setters of a chain object. -/
inductive ChainSetter where
  | addOwner (addr : Address)
  | removeOwner (addr : Address)
  | setStartBlock (startBlock : UInt64)
  | setEndBlock (endBlock : UInt64)

/-- The call of a setter on the token object `s`. -/
def TokenSetter.call (tokenID : UInt64) (s : TokenObject) : TokenSetter → M σ TokenObject
  | .setOwner owner => Plasma.setOwner tokenID s owner
  | .setBalance balance allowance => Plasma.setBalance tokenID s balance allowance
  | .setWithdrawal allowance spent => Plasma.setWithdrawal tokenID s allowance spent
  | .setPrevBlock prevBlocknum => Plasma.setPrevBlock tokenID s prevBlocknum
  | .setExit => Plasma.setExit tokenID s

/-- The call of a setter on the account object in the map; the amounts of `AddToken` and
`RemoveToken` are any integers. -/
def AccountSetter.call (addr : Address) : AccountSetter → M σ (Option (Ref Account))
  | .addToken tokenID b d => updateAccount addr (tokenChange addr)
      (fun a => ⟨a.tokens ++ [tokenID], a.denomination + d, a.balance + b⟩) (some .held)
  | .removeToken tokenID b d => updateAccount addr (tokenChange addr)
      (fun a => ⟨a.tokens.filter (fun tID => tID ≠ tokenID), a.denomination - d, a.balance - b⟩)
      (some .held)
  | .setAccountBalance balance => Plasma.setAccountBalance addr (fun _ => balance) (some .held)
  | .setAccountDenomination denomination =>
      Plasma.setAccountDenomination addr (fun _ => denomination) (some .held)

/-- The call of a setter on the chain object in the map. -/
def ChainSetter.call (chainID : UInt64) : ChainSetter → M σ (Option (Ref AnchorBlock))
  | .addOwner addr => Plasma.addOwner chainID addr (some .held)
  | .removeOwner addr => Plasma.removeOwner chainID addr (some .held)
  | .setStartBlock startBlock => Plasma.setStartBlock chainID startBlock (some .held)
  | .setEndBlock endBlock => Plasma.setEndBlock chainID endBlock (some .held)

/-- A call on a `StateDB` or on one of its objects. -/
inductive StateCall where
  | token (tokenID : UInt64) (f : TokenSetter)
  | account (addr : Address) (f : AccountSetter)
  | chain (chainID : UInt64) (f : ChainSetter)
  | snapshot
  | revertToSnapshot (revid : ℕ)

/-- The call; where there is no object in the map there is nothing to call a setter on. -/
def StateCall.exec (S : Storage σ) : StateCall → M σ Unit
  | .token tokenID f => do
      match (← getObjects).tokenObjects.lookup tokenID with
      | none => .panic .nilDereference
      | some s => do
          let s ← f.call tokenID s
          modifyObjects fun o => { o with tokenObjects := o.tokenObjects.insert tokenID s }
  | .account addr f => do
      let _ ← f.call addr
      pure ()
  | .chain chainID f => do
      let _ ← f.call chainID
      pure ()
  | .snapshot => do
      let _ ← Plasma.snapshot
      pure ()
  | .revertToSnapshot revid => Plasma.revertToSnapshot S revid

/-- Calls one after the other; an error that `RevertToSnapshot` returns stops nothing. -/
def execCalls (S : Storage σ) (calls : List StateCall) : M σ Unit :=
  each (fun c => (c.exec S).orElse fun _ => pure ()) calls

/-- With the amounts that the transactions use, `AddToken` is the one of the model. -/
example (addr : Address) (tokenID b d : UInt64) :
    (AccountSetter.addToken tokenID b.toNat d.toNat).call addr =
      (addToken addr tokenID b d (some .held) : M σ (Option (Ref Account))) := rfl

/-! ## What the entries restore -/

/-- The chain with its start at its end. -/
def AnchorBlock.level (c : AnchorBlock) : AnchorBlock := { c with startBlock := c.endBlock }

/-- The maps with a chain levelled. -/
def Objects.level (o : Objects) (chainID : UInt64) : Objects :=
  o.mapChain chainID AnchorBlock.level

/-- The maps with several chains levelled. -/
def Objects.levelAll (o : Objects) (chainIDs : List UInt64) : Objects :=
  chainIDs.foldl Objects.level o

/-- The maps with other token objects. -/
def Objects.withTokens (o : Objects) (m : GoMap UInt64 TokenObject) : Objects :=
  { o with tokenObjects := m }

/-- The entry sets start and end of a chain to the same block. -/
def JournalEntry.Level : JournalEntry → Prop
  | .anchorBlockChange _ prevStart prevEnd => prevStart = prevEnd
  | _ => True

/-- The object that the entry is about is in the map; the entries of tokens are undone on copies. -/
def JournalEntry.Held (o : Objects) : JournalEntry → Prop
  | .accountTokenChange addr _ _ _ => (o.account addr).isSome
  | .accountBalanceChange addr _ => (o.account addr).isSome
  | .accountDenominationChange addr _ => (o.account addr).isSome
  | .chainOwnerChange chainID _ => (o.chain chainID).isSome
  | .anchorBlockChange chainID _ _ => (o.chain chainID).isSome
  | _ => True

section Maps

variable {o o' : Objects} {addr : Address} {k k' : UInt64} {f : Account → Account}
  {g g' : AnchorBlock → AnchorBlock} {m : GoMap UInt64 TokenObject}

theorem Objects.mapAccount_withTokens :
    (o.withTokens m).mapAccount addr f = (o.mapAccount addr f).withTokens m := by
  have ha : (o.withTokens m).account addr = o.account addr := rfl
  unfold Objects.mapAccount
  rw [ha]
  cases o.account addr with
  | none => rfl
  | some a => rfl

theorem Objects.mapChain_withTokens :
    (o.withTokens m).mapChain k g = (o.mapChain k g).withTokens m := by
  have hc : (o.withTokens m).chain k = o.chain k := rfl
  unfold Objects.mapChain
  rw [hc]
  cases o.chain k with
  | none => rfl
  | some c => rfl

theorem Objects.mapChain_eq :
    o.mapChain k g = { o with chainObjects := (o.mapChain k g).chainObjects } := by
  unfold Objects.mapChain
  cases o.chain k with
  | none => rfl
  | some c => rfl

theorem Objects.chain_mapChain :
    (o.mapChain k g).chain k' = if k' = k then (o.chain k).map g else o.chain k' := by
  unfold Objects.mapChain
  cases hc : o.chain k with
  | none =>
    by_cases h : k' = k
    · rw [if_pos h, h, hc, Option.map_none]
    · rw [if_neg h]
  | some c => rw [Objects.chain_insert, Option.map_some]

theorem Objects.account_mapAccount {addr' : Address} :
    (o.mapAccount addr f).account addr' =
      if addr' = addr then (o.account addr).map f else o.account addr' := by
  unfold Objects.mapAccount
  cases ha : o.account addr with
  | none =>
    by_cases h : addr' = addr
    · rw [if_pos h, h, ha, Option.map_none]
    · rw [if_neg h]
  | some c => rw [Objects.account_insert, Option.map_some]

theorem Objects.account_mapChain : (o.mapChain k g).account addr = o.account addr := by
  rw [Objects.mapChain_eq]
  rfl

theorem Objects.chain_mapAccount : (o.mapAccount addr f).chain k = o.chain k := by
  unfold Objects.mapAccount
  cases o.account addr with
  | none => rfl
  | some a => rfl

/-- Changes of chains commute, if they do so on one chain. -/
theorem Objects.mapChain_comm (h : k = k' → ∀ c, g (g' c) = g' (g c)) :
    (o.mapChain k' g').mapChain k g = (o.mapChain k g).mapChain k' g' := by
  have hchains : ((o.mapChain k' g').mapChain k g).chainObjects =
      ((o.mapChain k g).mapChain k' g').chainObjects := by
    apply Finmap.ext_lookup
    intro x
    change Objects.chain x _ = Objects.chain x _
    simp only [Objects.chain_mapChain]
    by_cases hk : k = k'
    · subst hk
      by_cases hx : x = k
      · simp only [if_pos hx, if_true, Option.map_map]
        congr 1
        funext c
        exact h rfl c
      · simp only [if_neg hx]
    · by_cases hx : x = k
      · subst hx
        simp only [if_true, if_neg hk]
      · simp only [if_neg hx, if_neg (Ne.symm hk)]
  rw [Objects.mapChain_eq, hchains, Objects.mapChain_eq (o := o) (k := k') (g := g')]
  rw [Objects.mapChain_eq (o := o.mapChain k g), Objects.mapChain_eq (o := o) (k := k) (g := g)]

/-- Changes of an account and of a chain commute. -/
theorem Objects.mapAccount_mapChain_comm :
    (o.mapChain k g).mapAccount addr f = (o.mapAccount addr f).mapChain k g := by
  unfold Objects.mapAccount
  rw [Objects.account_mapChain]
  cases o.account addr with
  | none => rfl
  | some a =>
    unfold Objects.mapChain
    have hc : Objects.chain k
        { o with accountObjects := o.accountObjects.insert addr (some (f a)) } = o.chain k := rfl
    rw [hc]
    cases o.chain k with
    | none => rfl
    | some c => rfl

end Maps

/-! ## Undoing lists of entries -/

section Undo

variable {o : Objects} {e : JournalEntry} {es : List JournalEntry} {k : UInt64}
  {m : GoMap UInt64 TokenObject}

theorem JournalEntry.undo_withTokens : e.undo (o.withTokens m) = (e.undo o).withTokens m := by
  cases e with
  | exitChange | balanceChange | withdrawChange | ownerChange | prevBlockChange => rfl
  | accountTokenChange | accountBalanceChange | accountDenominationChange =>
    exact Objects.mapAccount_withTokens
  | chainOwnerChange | anchorBlockChange => exact Objects.mapChain_withTokens

theorem undo_withTokens : undo es (o.withTokens m) = (undo es o).withTokens m := by
  induction es with
  | nil => rfl
  | cons e es ih =>
    change e.undo (undo es (o.withTokens m)) = (e.undo (undo es o)).withTokens m
    rw [ih, JournalEntry.undo_withTokens]

/-- Levelling a chain commutes with undoing entries that level it. -/
theorem JournalEntry.undo_level (he : e.Level) : e.undo (o.level k) = (e.undo o).level k := by
  cases e with
  | exitChange | balanceChange | withdrawChange | ownerChange | prevBlockChange => rfl
  | accountTokenChange | accountBalanceChange | accountDenominationChange =>
    exact Objects.mapAccount_mapChain_comm
  | chainOwnerChange => exact Objects.mapChain_comm fun _ _ => rfl
  | anchorBlockChange chainID s t =>
    have hst : s = t := he
    exact Objects.mapChain_comm fun _ c => by rw [AnchorBlock.level, AnchorBlock.level, hst]

theorem undo_level (hes : ∀ e ∈ es, e.Level) : undo es (o.level k) = (undo es o).level k := by
  induction es with
  | nil => rfl
  | cons e es ih =>
    change e.undo (undo es (o.level k)) = (e.undo (undo es o)).level k
    rw [ih fun e' h => hes e' (List.mem_cons_of_mem _ h),
      JournalEntry.undo_level (hes e List.mem_cons_self)]

/-- Undoing an entry keeps the objects in the maps, whatever is in them. -/
theorem JournalEntry.undo_registered (e : JournalEntry) (o : Objects) :
    (∀ addr, ((e.undo o).account addr).isSome = (o.account addr).isSome) ∧
      ∀ k, ((e.undo o).chain k).isSome = (o.chain k).isSome := by
  have hmapA : ∀ addr (f : Account → Account),
      (∀ addr', ((o.mapAccount addr f).account addr').isSome = (o.account addr').isSome) ∧
        ∀ k, ((o.mapAccount addr f).chain k).isSome = (o.chain k).isSome := by
    intro addr f
    refine ⟨fun addr' => ?_, fun k => by rw [Objects.chain_mapAccount]⟩
    rw [Objects.account_mapAccount]
    split_ifs with h
    · rw [h, Option.isSome_map]
    · rfl
  have hmapC : ∀ k (g : AnchorBlock → AnchorBlock),
      (∀ addr, ((o.mapChain k g).account addr).isSome = (o.account addr).isSome) ∧
        ∀ k', ((o.mapChain k g).chain k').isSome = (o.chain k').isSome := by
    intro k g
    refine ⟨fun addr => by rw [Objects.account_mapChain], fun k' => ?_⟩
    rw [Objects.chain_mapChain]
    split_ifs with h
    · rw [h, Option.isSome_map]
    · rfl
  cases e with
  | exitChange | balanceChange | withdrawChange | ownerChange | prevBlockChange =>
    exact ⟨fun _ => rfl, fun _ => rfl⟩
  | accountTokenChange | accountBalanceChange | accountDenominationChange => exact hmapA _ _
  | chainOwnerChange | anchorBlockChange => exact hmapC _ _

/-- The objects in the maps are those of `o₀`. -/
structure SameRegistered (o₀ o : Objects) : Prop where
  account : ∀ addr, (o.account addr).isSome = (o₀.account addr).isSome
  chain : ∀ k, (o.chain k).isSome = (o₀.chain k).isSome

theorem SameRegistered.undo {o₀ : Objects} (h : SameRegistered o₀ o) :
    SameRegistered o₀ (undo es o) := by
  induction es with
  | nil => exact h
  | cons e es ih =>
    obtain ⟨ha, hc⟩ := JournalEntry.undo_registered e (Plasma.undo es o)
    exact ⟨fun addr => (ha addr).trans (ih.account addr), fun k => (hc k).trans (ih.chain k)⟩

theorem JournalEntry.Held.congr {o₀ : Objects} (h : SameRegistered o₀ o) (he : e.Held o₀) :
    e.Held o := by
  cases e with
  | exitChange | balanceChange | withdrawChange | ownerChange | prevBlockChange => trivial
  | accountTokenChange | accountBalanceChange | accountDenominationChange =>
    exact (h.account _).trans he
  | chainOwnerChange | anchorBlockChange => exact (h.chain _).trans he

end Undo

/-! ## Reverting does not panic -/

/-- Reading a token does not panic, and the chunk of a record that the trie names is there. -/
def Storage.ReadsTokens (S : Storage σ) : Prop :=
  ∀ tokenID st, ∃ r st', S.getToken tokenID st = .ok (r, st') ∧ r ≠ .chunkMissing

/-- The call returns, with a value or an error. -/
def Returns {α : Type} (x : M σ α) (w : Env σ) : Prop := ∃ r w', x w = .ok (r, w')

theorem returns_revertToken (hS : S.ReadsTokens) (tokenID : UInt64)
    (set : TokenObject → M σ TokenObject) (hset : ∀ t w, ∃ t' w', set t w = .ok (.ok t', w')) :
    Returns (revertToken S tokenID set) w := by
  obtain ⟨r, st, hr, hne⟩ := hS tokenID w.store
  have hon : onStore (S.getToken tokenID) w = .ok (.ok r, { w with store := st }) := by
    rw [onStore, hr]
  rw [Returns, revertToken]
  rcases r with e | _ | e | _ | e | t
  case chunkMissing => exact absurd rfl hne
  case record =>
    obtain ⟨t', w', ht'⟩ := hset ⟨t, false⟩ { w with store := st }
    refine ⟨.ok (), w', ?_⟩
    rw [bind_ok (show getTokenObject S tokenID w = .ok (.ok (some ⟨t, false⟩), _) from bind_ok hon)]
    exact bind_ok ht'
  all_goals exact ⟨.error _, _, bind_error (show getTokenObject S tokenID w = _ from bind_ok hon)⟩

theorem returns_revertAccount {addr : Address} (h : (w.db.objects.account addr).isSome)
    (f : Account → Account) : Returns (revertAccount S addr f) w := by
  obtain ⟨a, ha⟩ := Option.isSome_iff_exists.mp h
  have hget : getOrCreateAccount S addr w = .ok (.ok (some .held), w) := by
    rw [getOrCreateAccount, bind_ok (rfl : getObjects w = .ok (.ok w.db.objects, w)),
      Objects.lookup_of_account ha]
    rfl
  have hderef : deref (Objects.account addr) (some .held) w = .ok (.ok a, w) := by
    rw [deref, bind_ok (rfl : getObjects w = .ok (.ok w.db.objects, w)), ha]
    rfl
  rw [Returns, revertAccount, bind_ok hget, bind_ok hderef]
  exact ⟨_, _, rfl⟩

theorem returns_revertChain {k : UInt64} (h : (w.db.objects.chain k).isSome)
    (g : AnchorBlock → AnchorBlock) : Returns (revertChain S k g) w := by
  obtain ⟨c, hc⟩ := Option.isSome_iff_exists.mp h
  have hl : w.db.objects.chainObjects.lookup k = some c := hc
  have hget : getOrCreateChain S k w = .ok (.ok (some .held), w) := by
    rw [getOrCreateChain, bind_ok (rfl : getObjects w = .ok (.ok w.db.objects, w)), hl]
    rfl
  have hderef : deref (Objects.chain k) (some .held) w = .ok (.ok c, w) := by
    rw [deref, bind_ok (rfl : getObjects w = .ok (.ok w.db.objects, w)), hc]
    rfl
  rw [Returns, revertChain, bind_ok hget, bind_ok hderef]
  exact ⟨_, _, rfl⟩

theorem JournalEntry.returns_revert (hS : S.ReadsTokens) {e : JournalEntry}
    (he : e.Held w.db.objects) : Returns (e.revert S) w := by
  cases e with
  | exitChange | balanceChange | withdrawChange | ownerChange | prevBlockChange =>
    exact returns_revertToken hS _ _ fun _ _ => ⟨_, _, rfl⟩
  | accountTokenChange | accountBalanceChange | accountDenominationChange =>
    exact returns_revertAccount he _
  | chainOwnerChange | anchorBlockChange => exact returns_revertChain he _

/-- The loop of `RevertToSnapshot` comes to its end. -/
theorem revertAll_returns (hS : S.ReadsTokens) {o₀ : Objects} {es : List JournalEntry}
    (hes : ∀ e ∈ es, e.Held o₀) (hw : SameRegistered o₀ w.db.objects) :
    ∃ w', each (fun e => (JournalEntry.revert S e).orElse fun _ => pure ()) es.reverse w =
      .ok (.ok (), w') := by
  -- the loop meets the last entry first
  induction es using List.reverseRecOn generalizing w with
  | nil => exact ⟨w, rfl⟩
  | append_singleton es e ih =>
    have he : e.Held w.db.objects := (hes e (by simp)).congr hw
    obtain ⟨r, w', hr⟩ := JournalEntry.returns_revert hS he
    have hrev : Reverted w (e.undo w.db.objects) w' := by
      have hsat := JournalEntry.sat_revert (w := w) S e
      rcases r with err | u
      · exact hsat.error hr
      · exact hsat.ok hr
    have hfirst : ((e.revert S).orElse fun _ => pure ()) w = .ok (.ok (), w') := by
      rw [orElse, hr]
      rcases r with err | u
      · rfl
      · rfl
    have hw' : SameRegistered o₀ w'.db.objects := by
      have hone : SameRegistered o₀ (undo [e] w.db.objects) := hw.undo
      rw [hrev.objects]
      exact hone
    obtain ⟨w'', hw''⟩ := ih (fun e' he' => hes e' (List.mem_append_left _ he')) hw'
    refine ⟨w'', ?_⟩
    rw [List.reverse_concat, each, bind_ok hfirst]
    exact hw''

/-- Reverting to a valid revision returns, if the objects of the entries are in the maps. -/
theorem revertToSnapshot_returns (hS : S.ReadsTokens) {p : Objects} {rs rs' : List Revision}
    {r : Revision} (hv : w.db.validRevisions = rs ++ r :: rs') (hr : ∀ r' ∈ rs, r'.id < r.id)
    (hes : ∀ e ∈ w.db.journal.drop r.journalIndex, e.Held p)
    (hw : SameRegistered p w.db.objects) :
    ∃ w', revertToSnapshot S r.id w = .ok (.ok (), w') := by
  obtain ⟨w', hw'⟩ := revertAll_returns hS hes hw
  rw [revertToSnapshot_eq S hv hr, bind_ok hw']
  exact ⟨_, rfl⟩

/-! ## Valid revisions -/

/-- Two ways to single out an entry of one list. -/
theorem append_cons_cases {α : Type} {l l' m m' : List α} {a b : α}
    (h : l ++ a :: m = l' ++ b :: m') :
    (∃ d, l' = l ++ a :: d ∧ m = d ++ b :: m') ∨ a = b ∨ ∃ d, l = l' ++ b :: d := by
  rcases List.append_eq_append_iff.mp h with ⟨d, rfl, hd⟩ | ⟨d, rfl, hd⟩
  · cases d with
    | nil =>
      cases hd
      exact .inr (.inl rfl)
    | cons x d =>
      cases hd
      exact .inl ⟨d, rfl, rfl⟩
  · cases d with
    | nil =>
      cases hd
      exact .inr (.inl rfl)
    | cons x d =>
      cases hd
      exact .inr (.inr ⟨d, rfl⟩)

/-- `sort.Search` finds a revision with the id. -/
def StateDB.Valid (db : StateDB) (revid : ℕ) : Prop :=
  ∃ r, db.validRevisions[db.validRevisions.findIdx fun r => decide (revid ≤ r.id)]? = some r ∧
    r.id = revid

theorem StateDB.valid_iff {db : StateDB} {revid : ℕ} :
    db.Valid revid ↔ ∃ rs r rs', db.validRevisions = rs ++ r :: rs' ∧ r.id = revid ∧
      ∀ r' ∈ rs, r'.id < r.id := by
  constructor
  · rintro ⟨r, hr, rfl⟩
    generalize hi : db.validRevisions.findIdx (fun r' => decide (r.id ≤ r'.id)) = i at hr
    obtain ⟨hlt, hget⟩ := List.getElem?_eq_some_iff.mp hr
    refine ⟨db.validRevisions.take i, r, db.validRevisions.drop (i + 1), ?_, rfl, ?_⟩
    · rw [← hget, ← List.drop_eq_getElem_cons hlt, List.take_append_drop]
    · intro r' hr'
      obtain ⟨j, hj, hget'⟩ := List.mem_take_iff_getElem.mp hr'
      have hbefore := List.not_of_lt_findIdx (hi ▸ (lt_min_iff.mp hj).1)
      rw [hget'] at hbefore
      simpa using hbefore
  · rintro ⟨rs, r, rs', hsplit, rfl, hrs⟩
    refine ⟨r, ?_, rfl⟩
    rw [hsplit, findIdx_revision hrs, List.getElem?_append_right (le_refl _), Nat.sub_self]
    rfl

/-- `RevertToSnapshot` of an id that is not valid returns an error and changes nothing. -/
theorem revertToSnapshot_invalid {revid : ℕ} (h : ¬ w.db.Valid revid) :
    revertToSnapshot S revid w = .ok (.error ("[statedb:RevertToSnapshot] revision id " ++
      toString revid ++ " cannot be reverted"), w) := by
  rw [revertToSnapshot, bind_ok (rfl : (Act.get : M σ (Env σ)) w = .ok (.ok w, w))]
  cases hr : w.db.validRevisions[w.db.validRevisions.findIdx fun r => decide (revid ≤ r.id)]? with
  | none =>
    simp only
    rfl
  | some r =>
    have hne : r.id ≠ revid := fun heq => h ⟨r, hr, heq⟩
    simp only [if_pos hne]
    rfl

/-! ## Levelled chains -/

section Levels

variable {o : Objects} {es : List JournalEntry} {ks : List UInt64} {m : GoMap UInt64 TokenObject}

theorem undo_levelAll (hes : ∀ e ∈ es, e.Level) :
    undo es (o.levelAll ks) = (undo es o).levelAll ks := by
  induction ks generalizing o with
  | nil => rfl
  | cons k ks ih =>
    change undo es ((o.level k).levelAll ks) = ((undo es o).level k).levelAll ks
    rw [ih, undo_level hes]

theorem Objects.levelAll_withTokens :
    (o.withTokens m).levelAll ks = (o.levelAll ks).withTokens m := by
  induction ks generalizing o with
  | nil => rfl
  | cons k ks ih =>
    have hk : (o.withTokens m).level k = (o.level k).withTokens m := Objects.mapChain_withTokens
    change ((o.withTokens m).level k).levelAll ks = ((o.level k).levelAll ks).withTokens m
    rw [hk, ih]

theorem Objects.levelAll_eq :
    o.levelAll ks = { o with chainObjects := (o.levelAll ks).chainObjects } := by
  induction ks generalizing o with
  | nil => rfl
  | cons k ks ih =>
    change (o.level k).levelAll ks =
      { o with chainObjects := ((o.level k).levelAll ks).chainObjects }
    rw [ih, Objects.level, Objects.mapChain_eq]

theorem Objects.chain_levelAll (k : UInt64) :
    (o.levelAll ks).chain k = (o.chain k).map (if k ∈ ks then AnchorBlock.level else id) := by
  induction ks generalizing o with
  | nil => rw [if_neg List.not_mem_nil, Option.map_id, id, Objects.levelAll, List.foldl_nil]
  | cons k' ks ih =>
    change ((o.level k').levelAll ks).chain k = _
    rw [ih, Objects.level, Objects.chain_mapChain]
    by_cases hk : k = k'
    · subst hk
      rw [if_pos rfl, if_pos List.mem_cons_self, Option.map_map]
      by_cases hmem : k ∈ ks
      · rw [if_pos hmem]
        rfl
      · rw [if_neg hmem]
        rfl
    · simp only [List.mem_cons, hk, false_or, if_false]

/-- Levelling the chains changes nothing exactly if each of them starts at its end. -/
theorem Objects.levelAll_chainObjects_iff :
    (o.levelAll ks).chainObjects = o.chainObjects ↔
      ∀ k ∈ ks, ∀ c, o.chain k = some c → c.startBlock = c.endBlock := by
  constructor
  · intro h k hk c hc
    have hlevel : (o.levelAll ks).chain k = o.chain k := congrArg (Finmap.lookup k) h
    rw [Objects.chain_levelAll, if_pos hk, hc, Option.map_some, Option.some.injEq] at hlevel
    exact (congrArg AnchorBlock.startBlock hlevel).symm
  · intro h
    apply Finmap.ext_lookup
    intro k
    change (o.levelAll ks).chain k = o.chain k
    rw [Objects.chain_levelAll]
    by_cases hk : k ∈ ks
    · rw [if_pos hk]
      cases hc : o.chain k with
      | none => rfl
      | some c =>
        have hlevel : c.level = c := by
          obtain ⟨anchors, owners, startBlock, endBlock⟩ := c
          cases h k hk _ hc
          rfl
        rw [Option.map_some, hlevel]
    · rw [if_neg hk, Option.map_id, id]

theorem undo_tokenObjects : (undo es o).tokenObjects = o.tokenObjects := by
  have h : undo es (o.withTokens o.tokenObjects) = (undo es o).withTokens o.tokenObjects :=
    undo_withTokens
  change undo es o = _ at h
  rw [h]
  rfl

end Levels

/-! ## Between a snapshot and its revert -/

/-- The chains of which a call sets the start or the end. -/
def StateCall.bounds : StateCall → List UInt64
  | .chain chainID (.setStartBlock _) => [chainID]
  | .chain chainID (.setEndBlock _) => [chainID]
  | _ => []

/-- The state `w` after calls that follow a snapshot in `w₀`, of which those in `ks` are the chains
of which the start or the end was set. -/
structure AfterSnapshot (w₀ : Env σ) (ks : List UInt64) (w : Env σ) : Prop where
  undone : ∃ es, w.db.journal = w₀.db.journal ++ es ∧
    (∀ e ∈ es, e.Level ∧ e.Held w₀.db.objects) ∧
    undo es w.db.objects = (w₀.db.objects.levelAll ks).withTokens w.db.objects.tokenObjects
  registered : SameRegistered w₀.db.objects w.db.objects
  /-- The revision of the snapshot is there, and later ones are in the order of the journal. -/
  revisions : ∃ rs, w.db.validRevisions =
      w₀.db.validRevisions ++ ⟨w₀.db.nextRevisionId, w₀.db.journal.length⟩ :: rs ∧
    rs.Pairwise (fun r r' => r.journalIndex ≤ r'.journalIndex) ∧
    ∀ r ∈ rs, w₀.db.journal.length ≤ r.journalIndex ∧ r.journalIndex ≤ w.db.journal.length

theorem SameRegistered.refl (o : Objects) : SameRegistered o o := ⟨fun _ => rfl, fun _ => rfl⟩

theorem SameRegistered.symm {o o' : Objects} (h : SameRegistered o o') : SameRegistered o' o :=
  ⟨fun addr => (h.account addr).symm, fun k => (h.chain k).symm⟩

theorem SameRegistered.trans {o o' o'' : Objects} (h : SameRegistered o o')
    (h' : SameRegistered o' o'') : SameRegistered o o'' :=
  ⟨fun addr => (h'.account addr).trans (h.account addr),
    fun k => (h'.chain k).trans (h.chain k)⟩

theorem afterSnapshot_snap (w₀ : Env σ) : AfterSnapshot w₀ [] w₀.snap :=
  ⟨⟨[], (List.append_nil _).symm, fun _ h => absurd h List.not_mem_nil, rfl⟩, .refl _,
    ⟨[], rfl, .nil, fun _ h => absurd h List.not_mem_nil⟩⟩

section Steps

variable {ks : List UInt64}

/-- A setter: its entry undoes it, but for the levels of the chains `ks'`. -/
theorem AfterSnapshot.log (h : AfterSnapshot w₀ ks w) {e : JournalEntry} {f : Objects → Objects}
    {l : List UInt64} (hlevel : e.Level) (hheld : e.Held w.db.objects)
    (hreg : SameRegistered w.db.objects (f w.db.objects))
    (hundo : e.undo (f w.db.objects) =
      (w.db.objects.levelAll l).withTokens (f w.db.objects).tokenObjects) :
    AfterSnapshot w₀ (ks ++ l) (w.log e f) := by
  obtain ⟨es, hj, hes, hu⟩ := h.undone
  obtain ⟨rs, hv, hmono, hrs⟩ := h.revisions
  refine ⟨⟨es ++ [e], ?_, ?_, ?_⟩, h.registered.trans hreg, rs, hv, hmono, ?_⟩
  · rw [← List.append_assoc, ← hj]
    rfl
  · intro e' he'
    rcases List.mem_append.mp he' with he' | he'
    · exact hes e' he'
    · rw [List.mem_singleton.mp he']
      exact ⟨hlevel, hheld.congr h.registered.symm⟩
  -- the new entry is undone first, and levelling commutes with the older ones
  · rw [undo_concat]
    change undo es (e.undo (f w.db.objects)) =
      (w₀.db.objects.levelAll (ks ++ l)).withTokens (f w.db.objects).tokenObjects
    rw [hundo, undo_withTokens, undo_levelAll fun e' he' => (hes e' he').1, hu,
      Objects.levelAll_withTokens, Objects.levelAll, Objects.levelAll, Objects.levelAll,
      List.foldl_append]
    rfl
  · intro r hr
    refine ⟨(hrs r hr).1, (hrs r hr).2.trans ?_⟩
    change _ ≤ (w.db.journal ++ [e]).length
    rw [List.length_append]
    exact Nat.le_add_right _ _

theorem AfterSnapshot.token (h : AfterSnapshot w₀ ks w) {tokenID : UInt64} {s : TokenObject}
    (f : TokenSetter) :
    Sat (f.call tokenID s) w (fun s' w' => AfterSnapshot w₀ ks { w' with db := { w'.db with
        objects := { w'.db.objects with
          tokenObjects := w'.db.objects.tokenObjects.insert tokenID s' } } })
      (fun _ _ => False) := by
  -- every setter logs an entry that undoes nothing
  have hset : ∀ (e : JournalEntry) (s' : TokenObject), e.undo = id → e.Level →
      e.Held w.db.objects → AfterSnapshot w₀ ks (w.log e fun o =>
        { o with tokenObjects := o.tokenObjects.insert tokenID s' }) := by
    intro e s' he hl hh
    have hlog := h.log (f := fun o => { o with tokenObjects := o.tokenObjects.insert tokenID s' })
      (l := []) hl hh ⟨fun _ => rfl, fun _ => rfl⟩ (by rw [he]; rfl)
    rwa [List.append_nil] at hlog
  cases f with
  | setOwner | setBalance | setWithdrawal | setPrevBlock | setExit =>
    exact hset _ _ rfl trivial trivial

/-- A setter of an account. -/
theorem AfterSnapshot.updateAccount (h : AfterSnapshot w₀ ks w) {addr : Address}
    {entry : Account → JournalEntry} {f : Account → Account}
    (hentry : ∀ a, ∃ g, (entry a).undo = Objects.mapAccount addr g ∧ g (f a) = a ∧
      (entry a).Level ∧ ((w.db.objects.account addr).isSome → (entry a).Held w.db.objects)) :
    Sat (Plasma.updateAccount addr entry f (some .held)) w
      (fun _ w' => AfterSnapshot w₀ ks w') (fun _ _ => False) := by
  rw [sat_updateAccount]
  intro a ha
  change w.db.objects.account addr = some a at ha
  obtain ⟨g, hg, hga, hlevel, hheld⟩ := hentry a
  have hlog := h.log (f := Objects.assignAccount addr (some .held) (f a)) (l := []) hlevel
    (hheld (by rw [ha]; rfl)) ?_ ?_
  · rwa [List.append_nil] at hlog
  · refine ⟨fun addr' => ?_, fun _ => rfl⟩
    rw [Objects.assignAccount, Objects.account_insert]
    split_ifs with haddr
    · rw [haddr, ha]
      rfl
    · rfl
  · rw [hg]
    simp only [Objects.assignAccount, Objects.mapAccount, Objects.account_insert, if_true,
      Finmap.insert_insert, hga, insert_lookup (Objects.lookup_of_account ha)]
    rfl

theorem AfterSnapshot.account (h : AfterSnapshot w₀ ks w) {addr : Address} (f : AccountSetter) :
    Sat (f.call addr) w (fun _ w' => AfterSnapshot w₀ ks w') (fun _ _ => False) := by
  cases f with
  | addToken | removeToken =>
    exact h.updateAccount fun a => ⟨fun _ => a, rfl, rfl, trivial, fun hs => hs⟩
  | setAccountBalance =>
    exact h.updateAccount fun a => ⟨fun a' => { a' with balance := a.balance }, rfl, rfl, trivial,
      fun hs => hs⟩
  | setAccountDenomination =>
    exact h.updateAccount fun a => ⟨fun a' => { a' with denomination := a.denomination }, rfl, rfl,
      trivial, fun hs => hs⟩

/-- A setter of a chain, whose entry restores the old value or the levelled one. -/
theorem AfterSnapshot.updateChain (h : AfterSnapshot w₀ ks w) {chainID : UInt64}
    {entry : AnchorBlock → JournalEntry} {f : AnchorBlock → AnchorBlock} {ks' : List UInt64}
    (hentry : ∀ c, w.db.objects.chain chainID = some c → (entry c).Level ∧
      (entry c).Held w.db.objects ∧
      (entry c).undo { w.db.objects with
          chainObjects := w.db.objects.chainObjects.insert chainID (f c) } =
        w.db.objects.levelAll ks') :
    Sat (Plasma.updateChain chainID entry f (some .held)) w
      (fun _ w' => AfterSnapshot w₀ (ks ++ ks') w') (fun _ _ => False) := by
  rw [sat_updateChain]
  intro c hc
  change w.db.objects.chain chainID = some c at hc
  obtain ⟨hlevel, hheld, hundo⟩ := hentry c hc
  refine h.log (f := Objects.assignChain chainID (some .held) (f c)) hlevel hheld ?_ ?_
  · refine ⟨fun _ => rfl, fun k => ?_⟩
    rw [Objects.assignChain, Objects.chain_insert]
    split_ifs with hk
    · rw [hk, hc]
      rfl
    · rfl
  · rw [Objects.assignChain, hundo, Objects.levelAll_eq]
    rfl

theorem AfterSnapshot.chain (h : AfterSnapshot w₀ ks w) {chainID : UInt64} (f : ChainSetter) :
    Sat (f.call chainID) w
      (fun _ w' => AfterSnapshot w₀ (ks ++ (StateCall.chain chainID f).bounds) w')
      (fun _ _ => False) := by
  have hheld : ∀ {c}, w.db.objects.chain chainID = some c →
      (w.db.objects.chain chainID).isSome := fun hc => by rw [hc]; rfl
  have hrestore : ∀ {c : AnchorBlock} (c' : AnchorBlock) (g : AnchorBlock → AnchorBlock),
      Objects.mapChain chainID g { w.db.objects with
          chainObjects := w.db.objects.chainObjects.insert chainID c' } =
        { w.db.objects with chainObjects := w.db.objects.chainObjects.insert chainID (g c') } := by
    intro c c' g
    simp only [Objects.mapChain, Objects.chain_insert, if_true, Finmap.insert_insert]
  have howners : ∀ {c : AnchorBlock} (c' : AnchorBlock), w.db.objects.chain chainID = some c →
      { c' with owners := c.owners } = c →
      (ownersChange chainID c).undo { w.db.objects with
          chainObjects := w.db.objects.chainObjects.insert chainID c' } =
        w.db.objects.levelAll [] := by
    intro c c' hc hcc
    refine (hrestore (c := c) c' _).trans ?_
    rw [hcc, insert_lookup (show w.db.objects.chainObjects.lookup chainID = some c from hc)]
    rfl
  have hbounds : ∀ {c : AnchorBlock} (c' : AnchorBlock), w.db.objects.chain chainID = some c →
      { c' with startBlock := c.endBlock, endBlock := c.endBlock } = c.level →
      (blockChange chainID c).undo { w.db.objects with
          chainObjects := w.db.objects.chainObjects.insert chainID c' } =
        w.db.objects.levelAll [chainID] := by
    intro c c' hc hcc
    refine (hrestore (c := c) c' _).trans ?_
    rw [hcc]
    change _ = w.db.objects.mapChain chainID AnchorBlock.level
    rw [Objects.mapChain, hc]
  -- owners come back as they were; for the bounds the journal only has the last block
  cases f with
  | addOwner | removeOwner =>
    exact h.updateChain fun c hc => ⟨trivial, hheld hc, howners _ hc rfl⟩
  | setStartBlock | setEndBlock =>
    exact h.updateChain fun c hc => ⟨rfl, hheld hc, hbounds _ hc rfl⟩

theorem AfterSnapshot.snapshot (h : AfterSnapshot w₀ ks w) : AfterSnapshot w₀ ks w.snap := by
  obtain ⟨es, hj, hes, hu⟩ := h.undone
  obtain ⟨rs, hv, hmono, hrs⟩ := h.revisions
  have hlen : w₀.db.journal.length ≤ w.db.journal.length := by
    rw [hj, List.length_append]
    exact Nat.le_add_right _ _
  refine ⟨⟨es, hj, hes, hu⟩, h.registered,
    rs ++ [⟨w.db.nextRevisionId, w.db.journal.length⟩], ?_, ?_, ?_⟩
  · change w.db.validRevisions ++ [_] = _
    rw [hv, List.append_assoc, List.cons_append]
  · rw [List.pairwise_append]
    refine ⟨hmono, List.pairwise_singleton _ _, ?_⟩
    intro r hr r' hr'
    rw [List.mem_singleton.mp hr']
    exact (hrs r hr).2
  · intro r hr
    rcases List.mem_append.mp hr with hr | hr
    · exact hrs r hr
    · rw [List.mem_singleton.mp hr]
      exact ⟨hlen, le_refl _⟩

/-- `RevertToSnapshot` of a later snapshot: the entries before it are still there to be undone. -/
theorem AfterSnapshot.revertLater (h : AfterSnapshot w₀ ks w) (hw : w₀.db.Ordered) {revid : ℕ}
    (hlater : w₀.db.nextRevisionId < revid) :
    Sat (Plasma.revertToSnapshot S revid) w (fun _ w' => AfterSnapshot w₀ ks w')
      (fun _ w' => w' = w) := by
  by_cases hvalid : w.db.Valid revid
  · obtain ⟨A, r, B, hsplit, rfl, hA⟩ := StateDB.valid_iff.mp hvalid
    refine (sat_revertToSnapshot S hsplit hA).mono ?_ (fun _ _ hf => hf.elim)
    rintro _ w' ⟨ho, hv', -, hj'⟩
    obtain ⟨es, hj, hes, hu⟩ := h.undone
    obtain ⟨rs, hv, hmono, hrs⟩ := h.revisions
    -- the revision is one of those after the snapshot
    obtain ⟨D, rfl, hrs'⟩ : ∃ D, A = w₀.db.validRevisions ++
        ⟨w₀.db.nextRevisionId, w₀.db.journal.length⟩ :: D ∧ rs = D ++ r :: B := by
      rcases append_cons_cases (hv.symm.trans hsplit) with hlate | heq | ⟨D, hD⟩
      · exact hlate
      · exact absurd (congrArg Revision.id heq) (Nat.ne_of_lt hlater)
      · exact absurd hlater (Nat.lt_asymm (hw r (by rw [hD]; simp)))
    have hr := hrs r (by rw [hrs']; simp)
    rw [hrs', List.pairwise_append] at hmono
    have hjournal : w'.db.journal = w₀.db.journal ++
        es.take (r.journalIndex - w₀.db.journal.length) := by
      rw [hj' hr.2, hj, List.take_append, List.take_of_length_le hr.1]
    have hdrop : w.db.journal.drop r.journalIndex =
        es.drop (r.journalIndex - w₀.db.journal.length) := by
      rw [hj, List.drop_append, List.drop_of_length_le hr.1, List.nil_append]
    refine ⟨⟨_, hjournal, fun e he => hes e (List.mem_of_mem_take he), ?_⟩, ?_, D, hv', hmono.1, ?_⟩
    · rw [ho, hdrop, ← undo_append, List.take_append_drop, hu, undo_tokenObjects]
    · rw [ho]
      exact h.registered.undo
    · intro r' hr'
      refine ⟨(hrs r' (by rw [hrs']; simp [hr'])).1, ?_⟩
      rw [hj' hr.2, List.length_take, min_eq_left hr.2]
      exact hmono.2.2 r' hr' r List.mem_cons_self
  · rw [Sat, revertToSnapshot_invalid hvalid]

/-- One call. -/
theorem AfterSnapshot.exec (h : AfterSnapshot w₀ ks w) (hw : w₀.db.Ordered) (c : StateCall)
    (hnest : ∀ revid, c = .revertToSnapshot revid → w₀.db.nextRevisionId < revid) :
    Sat ((c.exec S).orElse fun _ => pure ()) w
      (fun _ w' => AfterSnapshot w₀ (ks ++ c.bounds) w') (fun _ _ => False) := by
  rw [sat_orElse]
  cases c with
  | token tokenID f =>
    simp only [StateCall.exec, StateCall.bounds, List.append_nil, sat_bind, sat_getObjects]
    cases w.db.objects.tokenObjects.lookup tokenID with
    | none => trivial
    | some s =>
      rw [sat_bind]
      exact (h.token f).mono (fun _ _ h' => h') (fun _ _ hf => hf.elim)
  | account addr f =>
    simp only [StateCall.exec, StateCall.bounds, List.append_nil, sat_bind, sat_pure]
    exact (h.account f).mono (fun _ _ h' => h') (fun _ _ hf => hf.elim)
  | chain chainID f =>
    simp only [StateCall.exec, sat_bind, sat_pure]
    exact (h.chain f).mono (fun _ _ h' => h') (fun _ _ hf => hf.elim)
  | snapshot =>
    simp only [StateCall.bounds, List.append_nil]
    exact h.snapshot
  | revertToSnapshot revid =>
    simp only [StateCall.bounds, List.append_nil]
    refine (h.revertLater hw (hnest revid rfl)).mono (fun _ _ h' => h') ?_
    rintro _ w' rfl
    exact h

/-- Any number of calls. -/
theorem AfterSnapshot.execCalls (h : AfterSnapshot w₀ ks w) (hw : w₀.db.Ordered)
    (calls : List StateCall)
    (hnest : ∀ revid, .revertToSnapshot revid ∈ calls → w₀.db.nextRevisionId < revid) :
    Sat (execCalls S calls) w
      (fun _ w' => AfterSnapshot w₀ (ks ++ calls.flatMap StateCall.bounds) w')
      (fun _ _ => False) := by
  induction calls generalizing w ks with
  | nil =>
    rw [List.flatMap_nil, List.append_nil]
    exact h
  | cons c calls ih =>
    rw [Plasma.execCalls, each, sat_bind, List.flatMap_cons, ← List.append_assoc]
    refine (h.exec hw c fun revid hc => hnest revid (hc ▸ List.mem_cons_self)).mono ?_
      (fun _ _ hf => hf)
    intro _ w' h'
    exact ih h' fun revid hmem => hnest revid (List.mem_cons_of_mem _ hmem)

/-- Then `RevertToSnapshot` of the snapshot returns, and the maps are those of the snapshot but for
the tokens and the levels of the chains. -/
theorem AfterSnapshot.revert (h : AfterSnapshot w₀ ks w) (hw : w₀.db.Ordered)
    (hS : S.ReadsTokens) :
    ∃ w', Plasma.revertToSnapshot S w₀.db.nextRevisionId w = .ok (.ok (), w') ∧
      w'.db.objects = (w₀.db.objects.levelAll ks).withTokens w.db.objects.tokenObjects ∧
      w'.db.validRevisions = w₀.db.validRevisions := by
  obtain ⟨es, hj, hes, hu⟩ := h.undone
  obtain ⟨rs, hv, -, -⟩ := h.revisions
  have hdrop : w.db.journal.drop w₀.db.journal.length = es := by rw [hj, List.drop_left]
  obtain ⟨w', hw'⟩ := revertToSnapshot_returns (p := w₀.db.objects) hS hv hw
    (by rw [hdrop]; exact fun e he => (hes e he).2) h.registered
  obtain ⟨ho, hv', -, -⟩ := (sat_revertToSnapshot S hv hw).ok hw'
  refine ⟨w', hw', ?_, hv'⟩
  rw [ho, hdrop, hu]

end Steps

/-! ## Results -/

/-- A revision that follows those in `db` cuts off itself and the later ones. -/
theorem StateDB.valid_cut {db db' : StateDB} {r : Revision} {rs : List Revision}
    (hdb' : db'.validRevisions = db.validRevisions ++ r :: rs)
    (hr : ∀ r' ∈ db.validRevisions, r'.id < r.id) (revid : ℕ) :
    db.Valid revid ↔ db'.Valid revid ∧ revid < r.id := by
  rw [StateDB.valid_iff, StateDB.valid_iff]
  constructor
  · rintro ⟨A, q, B, hsplit, rfl, hA⟩
    refine ⟨⟨A, q, B ++ r :: rs, ?_, rfl, hA⟩, hr q (by rw [hsplit]; simp)⟩
    rw [hdb', hsplit, List.append_assoc, List.cons_append]
  · rintro ⟨⟨A, q, B, hsplit, rfl, hA⟩, hlt⟩
    rcases append_cons_cases (hdb'.symm.trans hsplit) with ⟨D, hD, -⟩ | heq | ⟨D, hD⟩
    · exact absurd hlt (Nat.lt_asymm (hA r (by rw [hD]; simp)))
    · exact absurd hlt (by rw [heq]; exact lt_irrefl _)
    · exact ⟨A, q, D, hD, rfl, hA⟩

/-- The objects in the maps, with all their fields. -/
structure SameObjects (o o' : Objects) : Prop where
  tokens : o'.tokenObjects = o.tokenObjects
  accounts : o'.accountObjects = o.accountObjects
  chains : o'.chainObjects = o.chainObjects

/-- After `Snapshot` and any calls in which later snapshots only are reverted to,
`RevertToSnapshot` returns; later snapshots become invalid and earlier ones stay valid. It restores
the objects exactly if the tokens are as they were at the snapshot anyway, and every chain of which
a start or an end was set had its start at its end. -/
theorem snapshot_restores_iff (hS : S.ReadsTokens) (hw : w₀.db.Ordered) {id : ℕ} {w w₁ : Env σ}
    (hsnap : snapshot w₀ = .ok (.ok id, w)) (calls : List StateCall)
    (hnest : ∀ revid, .revertToSnapshot revid ∈ calls → id < revid)
    (hcalls : execCalls S calls w = .ok (.ok (), w₁)) :
    ∃ w₂, revertToSnapshot S id w₁ = .ok (.ok (), w₂) ∧
      (∀ i, w₂.db.Valid i ↔ w₁.db.Valid i ∧ i < id) ∧
      (SameObjects w₀.db.objects w₂.db.objects ↔
        w₁.db.objects.tokenObjects = w₀.db.objects.tokenObjects ∧
        ∀ k ∈ calls.flatMap StateCall.bounds, ∀ c, w₀.db.objects.chain k = some c →
          c.startBlock = c.endBlock) := by
  cases hsnap
  have h := ((afterSnapshot_snap w₀).execCalls hw calls hnest).ok hcalls
  rw [List.nil_append] at h
  obtain ⟨w₂, hrev, ho, hv⟩ := h.revert hw hS
  refine ⟨w₂, hrev, ?_, ?_⟩
  · obtain ⟨rs, hv₁, -, -⟩ := h.revisions
    rw [← hv] at hv₁
    exact StateDB.valid_cut hv₁ (by rw [hv]; exact hw)
  · constructor
    · rintro ⟨htokens, -, hchains⟩
      rw [ho] at htokens hchains
      exact ⟨htokens, Objects.levelAll_chainObjects_iff.mp hchains⟩
    · rintro ⟨htokens, hchains⟩
      refine ⟨?_, ?_, ?_⟩
      · rw [ho]
        exact htokens
      · rw [ho, Objects.levelAll_eq]
        rfl
      · rw [ho]
        exact Objects.levelAll_chainObjects_iff.mpr hchains

/-- A state with a token of the zero address, its account, and the chain `c`. -/
def oneOfEach (c : AnchorBlock) : Env Unit :=
  ⟨{ newStateDB with objects := { newStateDB.objects with
    tokenObjects := Finmap.singleton 1 ⟨⟨5, 0, zeroAddress, 5, 0, 0⟩, false⟩
    accountObjects := Finmap.singleton zeroAddress (some ⟨[1], 5, 5⟩)
    chainObjects := Finmap.singleton 3 c } }, ()⟩

/-- A chain that starts at its end, with a setter of each kind and a snapshot between them. -/
theorem snapshot_restores_oneOfEach : ∃ w₁ w₂,
    execCalls fullStorage [.account zeroAddress (.addToken 2 7 7), .snapshot,
        .chain 3 (.setEndBlock 4), .revertToSnapshot 1, .chain 3 (.addOwner zeroAddress),
        .account zeroAddress (.removeToken 1 5 5), .chain 3 (.setStartBlock 2)]
      (oneOfEach ⟨[], [], 1, 1⟩).snap = .ok (.ok (), w₁) ∧
    revertToSnapshot fullStorage 0 w₁ = .ok (.ok (), w₂) ∧
    SameObjects (oneOfEach ⟨[], [], 1, 1⟩).db.objects w₂.db.objects ∧
    w₁.db.objects.account zeroAddress = some ⟨[2], 7, 7⟩ := by
  obtain ⟨w₁, hrun, hacc, htokens⟩ : ∃ w₁, execCalls fullStorage
      [.account zeroAddress (.addToken 2 7 7), .snapshot, .chain 3 (.setEndBlock 4),
        .revertToSnapshot 1, .chain 3 (.addOwner zeroAddress),
        .account zeroAddress (.removeToken 1 5 5), .chain 3 (.setStartBlock 2)]
      (oneOfEach ⟨[], [], 1, 1⟩).snap = .ok (.ok (), w₁) ∧
      w₁.db.objects.account zeroAddress = some ⟨[2], 7, 7⟩ ∧
      w₁.db.objects.tokenObjects = (oneOfEach ⟨[], [], 1, 1⟩).db.objects.tokenObjects :=
    ⟨_, rfl, rfl, rfl⟩
  obtain ⟨w₂, hrev, -, hiff⟩ := snapshot_restores_iff (S := fullStorage)
    (fun _ st => ⟨_, st, rfl, by simp⟩)
    (fun r hr => by cases hr) rfl _ (by simp [oneOfEach, newStateDB]) hrun
  refine ⟨w₁, w₂, hrun, hrev, hiff.mpr ⟨htokens, ?_⟩, hacc⟩
  intro k hk c hc
  obtain rfl : k = 3 := by simpa [StateCall.bounds] using hk
  obtain rfl : (⟨[], [], 1, 1⟩ : AnchorBlock) = c := Option.some.inj hc
  rfl

theorem length_oneOwner : (Bytes.zeros 19 ++ [1]).length = 20 := by decide

/-- Another owner. -/
def oneOwner : Address := ⟨Bytes.zeros 19 ++ [1], length_oneOwner⟩

/-- The owner that was set stays after the revert, and so does a start block that moved. -/
theorem revert_not_restored :
    (∃ w₁ w₂, execCalls fullStorage [.token 1 (.setOwner oneOwner)]
        (oneOfEach ⟨[], [], 1, 3⟩).snap = .ok (.ok (), w₁) ∧
      revertToSnapshot fullStorage 0 w₁ = .ok (.ok (), w₂) ∧
      (w₂.db.objects.tokenObjects.lookup 1).map (fun s => s.token.owner) = some oneOwner) ∧
    ∃ w₁ w₂, execCalls fullStorage [.chain 3 (.setEndBlock 4)]
        (oneOfEach ⟨[], [], 1, 3⟩).snap = .ok (.ok (), w₁) ∧
      revertToSnapshot fullStorage 0 w₁ = .ok (.ok (), w₂) ∧
      w₂.db.objects.chain 3 = some ⟨[], [], 3, 3⟩ :=
  ⟨⟨_, _, rfl, rfl, rfl⟩, _, _, rfl, rfl, rfl⟩

end GoPlasma.Plasma
